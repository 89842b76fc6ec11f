import Jinx.ThreadSafeList
import Mathlib.Data.Fintype.Basic

/-! `LinkedListThreadSafe` is linearizable: any number of threads see a stack.

    The exchange is the moment at which a call takes effect. What happens to the list then is `Inv.step`
    and `Popping.step`; here are the order of the calls of each thread, and `_size`. -/

namespace Jinx.LinkedListThreadSafe

variable {τ ν : Type*} [DecidableEq τ] [DecidableEq ν] {s s' : LinkedListThreadSafe τ ν} {l : List ν}
  {t u : τ} {v w : ν} {p : Place ν} {b : Bool}

/-! ### The order of the calls of a thread -/

/-- The call that a label begins: the node of `push`, or null for `pop`. -/
def called (t : τ) : Label τ ν → Option (Option ν)
  | .push u v => if u = t then some (some v) else none
  | .pop u => if u = t then some none else none
  | .access .. => none

/-- The calls of a thread whose exchange has succeeded. -/
def done (s : LinkedListThreadSafe τ ν) (t : τ) : List (Option ν) :=
  s.history.filterMap fun x => if x.1 = t then some x.2.node else none

omit [DecidableEq ν] in
theorem goTo_pending (h : p.pending = (s.place t).pending) (u : τ) :
    ((s.goTo t p).place u).pending = (s.place u).pending := by
  rcases eq_or_ne u t with rfl | hne
  · rw [goTo_place_self, h]
  · rw [goTo_place_ne hne]

omit [DecidableEq ν] in
/-- A new call is pending after the one that is done. -/
theorem begin_order (ht : s.place t = .idle) {x : Option ν} (hp : p.pending = [x]) (u : τ) :
    s.done u ++ (s.place u).pending ++ (if t = u then some x else none).toList =
      (s.goTo t p).done u ++ ((s.goTo t p).place u).pending := by
  rcases eq_or_ne t u with rfl | hne
  · rw [if_pos rfl, goTo_place_self, hp, ht]
    exact congrArg (· ++ [x]) (List.append_nil _)
  · rw [if_neg hne, goTo_place_ne hne.symm]
    exact List.append_nil _

omit [DecidableEq ν] in
/-- An exchange that succeeds completes the call that was pending. -/
theorem exchange_order {o : StackOp ν} (ht : (s.place t).pending = [o.node]) (hp : p.pending = [])
    (q : Option ν) (u : τ) :
    s.done u ++ (s.place u).pending =
      done ({ s with head := q, history := s.history ++ [(t, o)] }.goTo t p) u ++
        ((s.goTo t p).place u).pending := by
  have hdone : done ({ s with head := q, history := s.history ++ [(t, o)] }.goTo t p) u =
      s.done u ++ (if t = u then some o.node else none).toList := by
    show List.filterMap _ (s.history ++ [(t, o)]) = _
    rw [List.filterMap_append, done]
    rcases eq_or_ne t u with rfl | hne
    · simp
    · simp [hne]
  rw [hdone]
  rcases eq_or_ne t u with rfl | hne
  · rw [if_pos rfl, goTo_place_self, hp, ht, List.append_nil, Option.toList_some]
  · rw [if_neg hne, goTo_place_ne hne.symm, Option.toList_none, List.append_nil]

theorem step_order {a : Label τ ν} (hstep : step s a = some s') (u : τ) :
    s.done u ++ (s.place u).pending ++ (called u a).toList = s'.done u ++ (s'.place u).pending := by
  cases a with
  | push t v =>
    obtain ⟨ht, hs⟩ := Option.ite_none_right_eq_some.mp hstep
    obtain rfl := Option.some.inj hs
    exact begin_order ht rfl u
  | pop t =>
    obtain ⟨ht, hs⟩ := Option.ite_none_right_eq_some.mp hstep
    obtain rfl := Option.some.inj hs
    exact begin_order ht rfl u
  | access t b =>
    refine (List.append_nil _).trans ?_
    cases access_outcome hstep with
    | relink v _ hpending => rw [goTo_pending (p := .link v s.head) hpending.symm]; rfl
    | link v oldHead ht =>
      exact congrArg (s.done u ++ ·) (goTo_pending (p := .pushExchange v oldHead)
        (by rw [ht]; rfl) u).symm
    | pushed v ht => exact exchange_order (o := .push v) (by rw [ht]; rfl) rfl _ u
    | refollow _ hpending => rw [goTo_pending (p := .follow s.head) hpending.symm]; rfl
    | follow oldHead ht =>
      exact congrArg (s.done u ++ ·) (goTo_pending (p := .popExchange _ _) (by rw [ht]; rfl) u).symm
    | popped newHead ht _ => exact exchange_order (o := .pop s.head) (by rw [ht]; rfl) rfl _ u
    | count n p hcounts =>
      obtain ⟨hbefore, hafter, -⟩ := Place.counts_pending hcounts
      exact congrArg (s.done u ++ ·) (goTo_pending (hafter.trans hbefore.symm) u).symm

theorem exec_order (u : τ) : ∀ (as : List (Label τ ν)) (s s' : LinkedListThreadSafe τ ν),
    exec s as = some s' →
      s.done u ++ (s.place u).pending ++ as.filterMap (called u) = s'.done u ++ (s'.place u).pending
  | [], s, s', hrun => by
    obtain rfl : s = s' := by simpa using hrun
    exact List.append_nil _
  | a :: as, s, s', hrun => by
    obtain ⟨m, hm, hrest⟩ := Runs.exec_cons.mp hrun
    rw [← exec_order u as m s' hrest, ← step_order hm u, List.append_assoc _ (called u a).toList]
    congr 1
    cases hcalled : called u a with
    | none => rw [List.filterMap_cons_none hcalled]; rfl
    | some x => rw [List.filterMap_cons_some hcalled]; rfl

/-! ### One thread alone -/

/-- A call begins where no other is under way. -/
def Alone (s : LinkedListThreadSafe τ ν) : Label τ ν → Prop
  | .push _ _ | .pop _ => ∀ u, s.place u = .idle
  | _ => True

/-- What `_size` is after the call. -/
def Place.due (size : Int) : Place ν → Int
  | .pushed => size + 1
  | .grow n => n + 1
  | .popped (some _) => size - 1
  | .shrink _ n => n - 1
  | _ => size

omit [DecidableEq ν] in
theorem Place.counts_due {q : Place ν} {size n : Int} (h : p.counts size = some (n, q)) :
    q.due n = p.due size := by
  unfold Place.counts at h
  split at h <;> cases h <;> rfl

/-- One thread is in a call, and `_size` is right when it is out again. -/
structure Counted (s : LinkedListThreadSafe τ ν) (l : List ν) : Prop extends Popping s l where
  alone : ∀ t u, s.place t ≠ .idle → s.place u ≠ .idle → t = u
  due : ∀ t, s.place t ≠ .idle → (s.place t).due s.size = l.length
  rest : (∀ t, s.place t = .idle) → s.size = l.length

/-- The list as long as `_size` will say. -/
theorem outcome_due {l' : List ν} (h : Inv s l) (hs : s.Outcome t b s')
    (hcontents : s'.contents = some l') (hdue : (s.place t).due s.size = l.length) :
    (s'.place t).due s'.size = l'.length := by
  have hsame : s.contents = some l' → (s.place t).due s.size = l'.length := fun hc => by
    rw [hdue, Option.some.inj (h.contents.symm.trans hc)]
  cases hs with
  | relink v hpushing _ =>
    rw [goTo_place_self, ← hsame hcontents]
    cases ht : s.place t <;> first | rfl | simp [ht, Place.pushing] at hpushing
  | link v oldHead ht =>
    rw [goTo_place_self, ← hsame hcontents, ht]
    rfl
  | pushed v ht =>
    have hlonger := Option.some.inj ((contents_append h.contents _ _ _).symm.trans hcontents)
    rw [ht] at hdue
    rw [goTo_place_self, ← hlonger, List.length_cons, Int.natCast_succ, ← hdue]
    rfl
  | refollow hpopping _ =>
    rw [goTo_place_self, ← hsame hcontents]
    cases ht : s.place t <;> first | rfl | simp [ht, Place.popping] at hpopping
  | follow oldHead ht =>
    rw [goTo_place_self, ← hsame hcontents, ht]
    rfl
  | popped newHead ht hb =>
    have hpop : (StackOp.pop s.head).apply l = some l' :=
      (contents_append h.contents _ _ _).symm.trans hcontents
    rw [StackOp.apply, if_pos h.links.head?_eq] at hpop
    obtain rfl := Option.some.inj hpop
    have hhead := h.links.head?_eq
    rw [ht] at hdue
    rw [goTo_place_self]
    cases l with
    | nil => rw [← hhead]; exact hdue
    | cons v l =>
      rw [← hhead]
      change s.size = ((v :: l).length : Int) at hdue
      show s.size - 1 = (l.length : Int)
      rw [hdue, List.length_cons]
      omega
  | count n p hcounts =>
    rw [goTo_place_self, ← hsame hcontents]
    exact Place.counts_due hcounts

omit [DecidableEq τ] [DecidableEq ν] in
theorem Alone.onePopper {a : Label τ ν} (h : Alone s a) : OnePopper s a := by
  cases a with
  | push t v => trivial
  | pop t =>
    intro u
    rw [h u]
    rfl
  | access t b => trivial

theorem Counted.begin {p : Place ν} (h : Counted s l) (hidle : ∀ u, s.place u = .idle)
    (hdue : ∀ n, p.due n = n)
    (hp : p ≠ .idle) (hpopping : Popping (s.goTo t p) l) : Counted (s.goTo t p) l := by
  have ht : ∀ u, (s.goTo t p).place u ≠ .idle → u = t := by
    intro u hu
    by_contra hne
    exact hu ((goTo_place_ne hne).trans (hidle u))
  refine ⟨hpopping, fun u u' hu hu' => (ht u hu).trans (ht u' hu').symm, fun u hu => ?_, fun hall => ?_⟩
  · obtain rfl := ht u hu
    rw [goTo_place_self, hdue]
    exact h.rest hidle
  · exact absurd (goTo_place_self.symm.trans (hall t)) hp

theorem Counted.step {a : Label τ ν} (h : Counted s l) (howned : Owned s a) (halone : Alone s a)
    (hstep : step s a = some s') : ∃ l', Counted s' l' := by
  obtain ⟨l', hpopping⟩ := h.toPopping.step howned (Alone.onePopper halone) hstep
  cases a with
  | push t v =>
    obtain ⟨-, hs⟩ := Option.ite_none_right_eq_some.mp hstep
    obtain rfl := Option.some.inj hs
    obtain rfl : l = l' := Option.some.inj (h.contents.symm.trans hpopping.contents)
    exact ⟨l, h.begin halone (fun _ => rfl) (by simp) hpopping⟩
  | pop t =>
    obtain ⟨-, hs⟩ := Option.ite_none_right_eq_some.mp hstep
    obtain rfl := Option.some.inj hs
    obtain rfl : l = l' := Option.some.inj (h.contents.symm.trans hpopping.contents)
    exact ⟨l, h.begin halone (fun _ => rfl) (by simp) hpopping⟩
  | access t b =>
    have ht : s.place t ≠ .idle := by
      intro ht
      simp [LinkedListThreadSafe.step, access, ht] at hstep
    have hout := access_outcome hstep
    have hdue := outcome_due h.toInv hout hpopping.contents (h.due t ht)
    have hother : ∀ u, s'.place u ≠ .idle → u = t := by
      intro u hu
      by_contra hne
      rw [outcome_place hout hne] at hu
      exact hne (h.alone u t hu ht)
    refine ⟨l', hpopping, fun u u' hu hu' => (hother u hu).trans (hother u' hu').symm, fun u hu => ?_,
      fun hall => ?_⟩
    · obtain rfl := hother u hu
      exact hdue
    · rw [hall t] at hdue
      exact hdue

/-! ### Any number of threads -/

omit [DecidableEq τ] in
theorem Counted.init : Counted (τ := τ) (ν := ν) {} [] where
  toPopping := .init
  alone _ _ h := absurd rfl h
  due _ h := absurd rfl h
  rest _ := rfl

/-- Where a node is pushed by one thread at a time and not while it is in the list, the exchanges of any
    number of threads are those of a stack that one thread alone uses, as long as no `pop` puts in a
    pointer that is stale (and no longer than that). It is never stale if one thread at a time is in `pop`.
    The calls of each thread take effect in their order, each one between its begin and its end. `_size` is
    right where the calls do not overlap. -/
theorem linearizable (as : List (Label τ ν)) (s : LinkedListThreadSafe τ ν) (hrun : exec {} as = some s)
    (howned : Runs.Meets step Owned {} as) :
    (Runs.Always step Sound {} as ↔ Runs.Meets step Fresh {} as) ∧
    (Runs.Meets step OnePopper {} as → Runs.Meets step Fresh {} as) ∧
    (Runs.Meets step Alone {} as → (∀ t, s.place t = .idle) →
      ∃ l, s.contents = some l ∧ s.size = l.length) ∧
    ∀ t, as.filterMap (called t) = s.done t ++ (s.place t).pending := by
  refine ⟨?_, fun hone => ?_, fun halone hidle => ?_, fun t => ?_⟩
  · exact Runs.always_iff_meets_given (I := fun s => ∃ l, Inv s l)
      (fun _ _ _ ⟨_, h⟩ howned hfresh hstep => h.step howned hfresh hstep) (fun _ ⟨_, h⟩ => h.sound)
      (fun _ _ _ ⟨_, h⟩ _ hstale hstep => h.not_sound hstale hstep)
      as {} s hrun howned ⟨[], Popping.init.toInv⟩
  · exact Runs.meets_of_meets (C := fun s a => Owned s a ∧ OnePopper s a)
      (I := fun s => ∃ l, Popping s l)
      (fun _ _ _ ⟨_, h⟩ ⟨ho, ha⟩ hstep => h.step ho ha hstep) (fun _ a ⟨_, h⟩ _ => h.fresh a) as {}
      ⟨[], .init⟩ ((Runs.meets_and as _).mpr ⟨howned, hone⟩)
  · obtain ⟨l, h⟩ := Runs.exec_invariant (C := fun s a => Owned s a ∧ Alone s a)
      (I := fun s => ∃ l, Counted s l)
      (fun _ _ _ ⟨_, h⟩ ⟨ho, ha⟩ hstep => h.step ho ha hstep) as {} s hrun
      ((Runs.meets_and as _).mpr ⟨howned, halone⟩) ⟨[], .init⟩
    exact ⟨l, h.contents, h.rest hidle⟩
  · exact exec_order t as {} s hrun

instance Owned.decidable [Fintype τ] (s : LinkedListThreadSafe τ ν) : ∀ a, Decidable (Owned s a)
  | .push _ v =>
    inferInstanceAs (Decidable ((∀ l ∈ s.contents, v ∉ l) ∧ ∀ u, (s.place u).pushing ≠ some v))
  | .pop _ => .isTrue trivial
  | .access .. => .isTrue trivial

/-- A whole call of one thread. -/
def whole (t : τ) (first : Label τ ν) : List (Label τ ν) := first :: List.replicate 5 (.access t false)

/-- `false` has read that 1 follows 2; then `true` takes both, and pushes 2 again. -/
def twoPoppers : List (Label Bool Nat) :=
  whole true (.push true 1) ++ whole true (.push true 2) ++
    [.pop false, .access false false, .access false false] ++
    whole true (.pop true) ++ whole true (.pop true) ++ whole true (.push true 2) ++ [.access false false]

/-- The exchange of `false` succeeds, and 1 is in the list again. -/
theorem linearizable_twoPoppers : ¬ Runs.Meets step Fresh {} twoPoppers := by
  intro hfresh
  have hshows : (exec {} twoPoppers).map (fun s => (s.contents, s.head)) = some (some [], some 1) := by
    decide
  obtain ⟨s, hrun, hs⟩ := Option.map_eq_some_iff.mp hshows
  obtain ⟨hcontents, hhead⟩ := Prod.mk.inj hs
  have howned : Runs.Meets step Owned {} twoPoppers := by decide
  obtain ⟨l, hl, hlinks⟩ := ((linearizable twoPoppers s hrun howned).1.mpr hfresh).last hrun
  obtain rfl : [] = l := Option.some.inj (hcontents.symm.trans hl)
  rw [hhead] at hlinks
  cases hlinks

end Jinx.LinkedListThreadSafe
