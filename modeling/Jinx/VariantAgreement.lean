import Jinx.Variant
import Mathlib.Data.List.Nodup

/-! Where `VariantRecursive` and `VariantLookupTable` do the same.

    With distinct types, the index of a type is its place in the list, and the recursion comes to the
    type that the table has. So the two are in the same state after the same operations, with two
    exceptions. `VariantRecursive::_compare` does not look at the type of `this`: it reads the memory
    as the alternative that the other one holds. And a copy that is assigned and whose constructor
    throws leaves an empty `VariantRecursive`, but a `VariantLookupTable` with the type of an object
    that is not there. -/

namespace Jinx

variable {C : CppTypes} {β : Type} {types : List C.Name} {t : C.Name} {k : Nat}

/-! ### What is held -/

/-- The alternative `t` is held. -/
def VariantBase.Holds (types : List C.Name) (v : VariantBase C) (t : C.Name) : Prop :=
  ∃ k : Nat, types[k]? = some t ∧ v.type = k

/-- An alternative is held, or none. -/
def VariantBase.Fits (types : List C.Name) (v : VariantBase C) : Prop :=
  v.type = -1 ∨ ∃ t, v.Holds types t

variable {this other v : VariantBase C} {fun_ : Visitor C β}

theorem table_of_holds (h : v.Holds types t) : VariantLookupTable.table types v.type = some t := by
  obtain ⟨k, hk, htype⟩ := h
  rw [VariantLookupTable.table, htype, if_neg (Int.not_lt.mpr (Int.natCast_nonneg k)), Int.toNat_natCast]
  exact hk

theorem VariantBase.Holds.not_empty (h : v.Holds types t) : v.empty = false := by
  obtain ⟨k, -, htype⟩ := h
  simp only [VariantBase.empty, htype, decide_eq_false_iff_not]
  omega

theorem VariantBase.Holds.unique {t' : C.Name} (h : v.Holds types t) (h' : v.Holds types t') : t = t' :=
  Option.some.inj ((table_of_holds h).symm.trans (table_of_holds h'))

theorem VariantBase.Holds.fits (h : v.Holds types t) : v.Fits types := .inr ⟨t, h⟩

/-- Whether something is held, and what, is a matter of the type. -/
theorem VariantBase.Fits.of_type (h : v.Fits types) (htype : this.type = v.type) : this.Fits types := by
  simp only [Fits, Holds, htype]
  exact h

theorem VariantBase.Fits.holds (h : v.Fits types) (hv : v.empty = false) : ∃ t, v.Holds types t := by
  refine h.resolve_left fun hnone => ?_
  simp [VariantBase.empty, hnone] at hv

theorem reset_type (D : Dispatch C β) : (D.reset v).type = -1 := by
  unfold Dispatch.reset
  split
  · rfl
  · rename_i h
    exact not_not.mp h

namespace VariantProgram

variable {s : VariantProgram C β} {i j : VarId}

@[simp] theorem set_vars (v : Option (VariantBase C)) :
    (s.set i v).vars j = if j = i then v else s.vars j := Function.update_apply ..

@[simp] theorem answer_vars (r : VariantResult C β) : (s.answer r).vars = s.vars := rfl

/-- The variants of a program all hold an alternative of the list, or none. -/
def Fits (types : List C.Name) (s : VariantProgram C β) : Prop :=
  ∀ i v, s.vars i = some v → v.Fits types

theorem Fits.answer (h : s.Fits types) (r : VariantResult C β) : (s.answer r).Fits types := h

theorem Fits.set (h : s.Fits types) (hv : v.Fits types) : (s.set i (some v)).Fits types := by
  intro j w hw
  rw [set_vars] at hw
  split at hw
  · obtain rfl := Option.some.inj hw
    exact hv
  · exact h j w hw

theorem Fits.drop (h : s.Fits types) : (s.set i none).Fits types := by
  intro j w hw
  rw [set_vars] at hw
  split at hw
  · simp at hw
  · exact h j w hw

theorem Fits.reset (h : s.Fits types) (D : Dispatch C β) (a : VariantBase C) :
    (s.set i (some (D.reset a))).Fits types := h.set (.inl (reset_type D))

end VariantProgram

/-! ### The table -/

/-- A copy notes the type first. -/
theorem lookupCopy_eq (h : other.Holds types t) :
    (VariantLookupTable.dispatch (β := β) types).constructCopy this other =
      (C.copy t (C.read t other.memory)).elim (⟨this.memory, other.type⟩, false)
        fun v => (⟨C.construct t v this.memory, other.type⟩, true) := by
  simp only [VariantLookupTable.dispatch, VariantLookupTable.constructCopy, table_of_holds h]
  cases C.copy t (C.read t other.memory) <;> rfl

theorem lookupCopy_type (this : VariantBase C) (h : other.Holds types t) :
    ((VariantLookupTable.dispatch (β := β) types).constructCopy this other).1.type = other.type := by
  rw [lookupCopy_eq h]
  cases C.copy t (C.read t other.memory) <;> rfl

theorem lookupMove_type (this : VariantBase C) (h : other.Holds types t) :
    ((VariantLookupTable.dispatch (β := β) types).constructMove this other).1.type = other.type ∧
      ((VariantLookupTable.dispatch (β := β) types).constructMove this other).2.type = -1 := by
  simp only [VariantLookupTable.dispatch, VariantLookupTable.constructMove, table_of_holds h, and_self]

theorem lookupVisit_type : ((VariantLookupTable.dispatch types).visit v fun_).1.type = v.type := by
  simp only [Dispatch.visit, VariantLookupTable.dispatch, VariantLookupTable.call]
  split
  · rfl
  · split <;> rfl

theorem lookupEqual_of_ne (hne : this.type ≠ other.type) :
    (VariantLookupTable.dispatch (β := β) types).equal this other = false := by
  simp [VariantLookupTable.dispatch, VariantLookupTable.equal, hne]

namespace VariantProgram

/-- Two variants that hold different alternatives, or of which one is empty, compare unequal. -/
def Unequal (D : Dispatch C β) (s : VariantProgram C β) : VariantOp C β → Prop
  | .equal i other | .notEqual i other =>
    ∀ a b, s.vars i = some a → s.vars other = some b → a.type ≠ b.type → D.equal a b = false
  | _ => True

theorem lookup_unequal {s : VariantProgram C β} {op : VariantOp C β} :
    Unequal (VariantLookupTable.dispatch types) s op := by
  cases op with
  | equal i other | notEqual i other =>
    intro a b _ _ hne
    exact lookupEqual_of_ne hne
  | _ => trivial

end VariantProgram

variable [DecidableEq C.Name]

/-! ### The recursion -/

/-- The index of a type in the list is a place at which it stands. -/
theorem exists_indexOf (ht : t ∈ types) (j : Int) :
    ∃ i : Nat, types[i]? = some t ∧ indexOf t j types = j + i := by
  induction types generalizing j with
  | nil => simp at ht
  | cons t' ts ih =>
    unfold indexOf
    by_cases h : t = t'
    · exact ⟨0, by simp [h], by simp [h]⟩
    · obtain ⟨i, hi, hindex⟩ := ih ((List.mem_cons.mp ht).resolve_left h) (j + 1)
      refine ⟨i + 1, by simpa using hi, ?_⟩
      rw [if_neg h, hindex]
      push_cast
      omega

theorem indexOf_iff (hnodup : types.Nodup) (ht : t ∈ types) :
    indexOf t 0 types = k ↔ types[k]? = some t := by
  obtain ⟨i, hi, hindex⟩ := exists_indexOf ht 0
  rw [hindex, Int.zero_add]
  constructor
  · intro h
    rwa [← Int.ofNat.inj h]
  · intro h
    have hlt : i < types.length := (List.getElem?_eq_some_iff.mp hi).1
    rw [(List.getElem?_inj hlt hnodup).mp (hi.trans h.symm)]

/-- The recursion goes past the others, comes to the type with the index, and finds none after it. -/
theorem walk (hnodup : types.Nodup) (hk : types[k]? = some t) {P : List C.Name → Prop}
    (hhit : ∀ ts, indexOf t 0 types = k → (∀ t' ∈ ts, indexOf t' 0 types ≠ k) → P (t :: ts))
    (hmiss : ∀ t' ts, indexOf t' 0 types ≠ k → P ts → P (t' :: ts)) : P types := by
  have ht : t ∈ types := List.mem_of_getElem? hk
  have hindex : indexOf t 0 types = k := (indexOf_iff hnodup ht).mpr hk
  obtain ⟨pre, post, hsplit⟩ := List.append_of_mem ht
  have hother : ∀ t' ∈ types, t' ≠ t → indexOf t' 0 types ≠ k := by
    intro t' ht' hne h
    have hk' := (indexOf_iff hnodup ht').mp h
    exact hne (Option.some.inj (hk'.symm.trans hk))
  have hdistinct : t ∉ pre ∧ t ∉ post := by
    rw [hsplit] at hnodup
    grind
  have hwalk : ∀ pre', (∀ t' ∈ pre', indexOf t' 0 types ≠ k) → P (pre' ++ t :: post) := by
    intro pre' hpre'
    induction pre' with
    | nil =>
      refine hhit post hindex fun t' ht' => hother t' (by simp [hsplit, ht']) ?_
      rintro rfl
      exact hdistinct.2 ht'
    | cons t' pre' ih =>
      refine hmiss t' _ (hpre' t' List.mem_cons_self) (ih fun x hx => ?_)
      exact hpre' x (List.mem_cons_of_mem t' hx)
  have hall := hwalk pre fun t' ht' => hother t' (by simp [hsplit, ht']) (by
    rintro rfl
    exact hdistinct.1 ht')
  rwa [← hsplit] at hall

/-! ### The ways to the alternative -/

theorem free_eq (hnodup : types.Nodup) (h : v.Holds types t) (memory : C.Memory) :
    VariantRecursive.free types types v.type memory = VariantLookupTable.free types v.type memory := by
  rw [VariantLookupTable.free, table_of_holds h]
  obtain ⟨k, hk, htype⟩ := h
  rw [htype]
  refine walk hnodup hk (P := fun ts => VariantRecursive.free types ts k memory = C.destroy t memory)
    (fun ts hindex _ => ?_) fun t' ts hindex ih => ?_
  · rw [VariantRecursive.free, if_pos hindex]
  · rw [VariantRecursive.free, if_neg hindex, ih]

/-- A copy: the two differ where the constructor throws. -/
theorem constructCopy_eq (hnodup : types.Nodup) (h : other.Holds types t) :
    (VariantRecursive.dispatch (β := β) types).constructCopy this other =
      (C.copy t (C.read t other.memory)).elim (this, false)
        fun v => (⟨C.construct t v this.memory, other.type⟩, true) := by
  simp only [VariantRecursive.dispatch]
  obtain ⟨k, hk, htype⟩ := h
  refine walk hnodup hk (P := fun ts => VariantRecursive.constructCopy types ts this other = _)
    (fun ts hindex _ => ?_) fun t' ts hindex ih => ?_
  · rw [VariantRecursive.constructCopy, if_pos (hindex.trans htype.symm)]
    cases C.copy t (C.read t other.memory) <;> rfl
  · rw [VariantRecursive.constructCopy, if_neg (htype ▸ hindex), ih]

theorem constructMove_eq (hnodup : types.Nodup) (h : other.Holds types t) :
    (VariantRecursive.dispatch (β := β) types).constructMove this other =
      (VariantLookupTable.dispatch (β := β) types).constructMove this other := by
  simp only [VariantRecursive.dispatch, VariantLookupTable.dispatch, VariantLookupTable.constructMove,
    table_of_holds h]
  obtain ⟨k, hk, htype⟩ := h
  refine walk hnodup hk (P := fun ts => VariantRecursive.constructMove types ts this other = _)
    (fun ts hindex _ => ?_) fun t' ts hindex ih => ?_
  · rw [VariantRecursive.constructMove, if_pos (hindex.trans htype.symm)]
  · rw [VariantRecursive.constructMove, if_neg (htype ▸ hindex), ih]

/-- `_compare` reads both operands as the alternative that the other one holds. -/
theorem compare_eq (hnodup : types.Nodup) (h : other.Holds types t) :
    VariantRecursive.compare types types this other =
      C.equal t (C.read t this.memory) (C.read t other.memory) := by
  obtain ⟨k, hk, htype⟩ := h
  refine walk hnodup hk (P := fun ts => VariantRecursive.compare types ts this other = _)
    (fun ts hindex _ => ?_) fun t' ts hindex ih => ?_
  · rw [VariantRecursive.compare, if_pos (hindex.trans htype.symm)]
  · rw [VariantRecursive.compare, if_neg (htype ▸ hindex), ih]

/-- No alternative has the index of an empty variant. -/
theorem compare_empty (h : other.empty) : VariantRecursive.compare types types this other = false := by
  have htype : other.type = -1 := by simpa [VariantBase.empty] using h
  have hall : ∀ ts, (∀ t ∈ ts, t ∈ types) →
      VariantRecursive.compare types ts this other = false := by
    intro ts hts
    induction ts with
    | nil => rfl
    | cons t ts ih =>
      obtain ⟨i, -, hindex⟩ := exists_indexOf (hts t List.mem_cons_self) 0
      rw [VariantRecursive.compare, if_neg (by omega)]
      exact ih fun t' ht' => hts t' (List.mem_cons_of_mem t ht')
  exact hall types fun _ ht => ht

/-- After the type was found, `_call` goes through the rest of the list for nothing. -/
theorem call_rest {ts : List C.Name} (h : ∀ t ∈ ts, indexOf t 0 types ≠ k) (memory : C.Memory) :
    VariantRecursive.call types fun_ ts k memory = (memory, []) := by
  induction ts with
  | nil => rfl
  | cons t ts ih =>
    rw [VariantRecursive.call, if_neg (h t List.mem_cons_self)]
    exact ih fun t' ht' => h t' (List.mem_cons_of_mem t ht')

theorem call_eq (hnodup : types.Nodup) (h : v.Holds types t) :
    (VariantRecursive.dispatch types).call fun_ v = (VariantLookupTable.dispatch types).call fun_ v := by
  have htable := table_of_holds h
  obtain ⟨k, hk, htype⟩ := h
  have hcall : VariantRecursive.call types fun_ types k v.memory =
      (C.construct t (fun_ t (C.read t v.memory)).1 v.memory, [(fun_ t (C.read t v.memory)).2]) := by
    refine walk hnodup hk (P := fun ts => VariantRecursive.call types fun_ ts k v.memory = _)
      (fun ts hindex hrest => ?_) fun t' ts hindex ih => ?_
    · rw [VariantRecursive.call, if_pos hindex]
      simp [call_rest hrest]
    · rw [VariantRecursive.call, if_neg hindex, ih]
  simp only [VariantRecursive.dispatch, VariantLookupTable.dispatch, VariantLookupTable.call, htable]
  rw [htype, hcall]

/-! ### The operations -/

theorem reset_eq (hnodup : types.Nodup) (h : v.Fits types) :
    (VariantRecursive.dispatch (β := β) types).reset v =
      (VariantLookupTable.dispatch (β := β) types).reset v := by
  rcases h with hnone | ⟨t, ht⟩
  · rw [Dispatch.reset, Dispatch.reset, if_neg (not_not.mpr hnone), if_neg (not_not.mpr hnone)]
  · simp only [Dispatch.reset, VariantRecursive.dispatch, VariantLookupTable.dispatch, free_eq hnodup ht]

theorem emplace_eq (hnodup : types.Nodup) (h : v.Fits types) (args : Option (C.Value t)) :
    (VariantRecursive.dispatch (β := β) types).emplace types v t args =
      (VariantLookupTable.dispatch (β := β) types).emplace types v t args := by
  rw [Dispatch.emplace, Dispatch.emplace, reset_eq hnodup h]

theorem visit_eq (hnodup : types.Nodup) (h : v.Fits types) :
    (VariantRecursive.dispatch types).visit v fun_ = (VariantLookupTable.dispatch types).visit v fun_ := by
  cases hv : v.empty with
  | true => simp [Dispatch.visit, hv]
  | false =>
    obtain ⟨t, ht⟩ := h.holds hv
    simp [Dispatch.visit, hv, call_eq hnodup ht]

/-- What one `==` needs for both to answer the same. -/
def Comparable (types : List C.Name) (this other : VariantBase C) : Prop :=
  this.type = other.type ∨ other.empty ∨
    ∀ t, other.Holds types t → C.equal t (C.read t this.memory) (C.read t other.memory) = false

theorem equal_iff (hnodup : types.Nodup) (this : VariantBase C) (hother : other.Fits types) :
    (VariantRecursive.dispatch (β := β) types).equal this other =
        (VariantLookupTable.dispatch (β := β) types).equal this other ↔
      Comparable types this other := by
  simp only [VariantRecursive.dispatch, VariantLookupTable.dispatch]
  cases hempty : other.empty with
  | true =>
    have htype : other.type = -1 := by simpa [VariantBase.empty] using hempty
    refine iff_of_true ?_ (.inr (.inl hempty))
    rw [VariantRecursive.equal, VariantLookupTable.equal, compare_empty hempty, htype]
    by_cases hthis : this.type = -1 <;> simp [hthis]
  | false =>
    obtain ⟨t, ht⟩ := hother.holds hempty
    have htype : other.type ≠ -1 := by simpa [VariantBase.empty] using hempty
    rw [VariantRecursive.equal, VariantLookupTable.equal, compare_eq hnodup ht]
    by_cases hsame : this.type = other.type
    · refine iff_of_true ?_ (.inl hsame)
      simp [VariantLookupTable.compare, hsame, htype, table_of_holds ht]
    · have hcomparable : Comparable types this other ↔
          C.equal t (C.read t this.memory) (C.read t other.memory) = false := by
        constructor
        · rintro (h | h | h)
          · exact absurd h hsame
          · simp [hempty] at h
          · exact h t ht
        · intro h
          refine .inr (.inr fun t' ht' => ?_)
          obtain rfl := ht.unique ht'
          exact h
      simp [hsame, hcomparable]

/-! ### Programs -/

namespace VariantProgram

variable {s p : VariantProgram C β} {op : VariantOp C β}

/-- A comparison that comes out the same; a copy that is assigned and whose constructor does not throw. -/
def Safe (types : List C.Name) (s : VariantProgram C β) : VariantOp C β → Prop
  | .equal i other | .notEqual i other =>
    ∀ a b, s.vars i = some a → s.vars other = some b → Comparable types a b
  | .copyAssign i other =>
    i ≠ other → ∀ b t, s.vars other = some b → b.Holds types t → (C.copy t (C.read t b.memory)).isSome
  | _ => True

theorem step_copyAssign (D : Dispatch C β) {i j : VarId} {a b : VariantBase C}
    (ha : s.vars i = some a) (hb : (s.set i (some (D.reset a))).vars j = some b) :
    step D types s (.copyAssign i j) =
      some (if b.empty then (s.set i (some (D.reset a))).answer .done
        else
          ((s.set i (some (D.reset a))).set i (some (D.constructCopy (D.reset a) b).1)).answer
            (completed (D.constructCopy (D.reset a) b).2)) := by
  simp only [step, ha, Option.bind_some, hb, Option.map_some]

/-- A copy that is not completed leaves the type behind in one of them. -/
theorem copyAssign_agrees_iff (hnodup : types.Nodup) (hfits : s.Fits types) {i j : VarId}
    (hstep : step (VariantLookupTable.dispatch types) types s (.copyAssign i j) = some p) :
    step (VariantRecursive.dispatch types) types s (.copyAssign i j) =
      step (VariantLookupTable.dispatch types) types s (.copyAssign i j) ↔
        Safe types s (.copyAssign i j) := by
  obtain ⟨a, ha, hrest⟩ := Option.bind_eq_some_iff.mp hstep
  obtain ⟨b, hb, -⟩ := Option.map_eq_some_iff.mp hrest
  have hreset := reset_eq (β := β) hnodup (hfits i a ha)
  rw [step_copyAssign _ ha hb, step_copyAssign _ ha (hreset ▸ hb), hreset]
  rw [set_vars] at hb
  cases hempty : b.empty with
  | true =>
    refine iff_of_true rfl fun hne b' t hb' ht => ?_
    rw [if_neg (Ne.symm hne), hb'] at hb
    obtain rfl := Option.some.inj hb
    simp [ht.not_empty] at hempty
  | false =>
    have hne : j ≠ i := by
      rintro rfl
      obtain rfl := Option.some.inj ((if_pos rfl).symm.trans hb)
      simp [VariantBase.empty, reset_type] at hempty
    rw [if_neg hne] at hb
    obtain ⟨t, ht⟩ := (hfits j b hb).holds hempty
    rw [constructCopy_eq hnodup ht, lookupCopy_eq ht]
    cases hcopy : C.copy t (C.read t b.memory) with
    | none =>
      refine iff_of_false (fun hsame => ?_) fun hsafe => ?_
      · have hvars := congrArg (fun q : Option (VariantProgram C β) =>
          q.map fun q => (q.vars i).map (·.type)) hsame
        obtain ⟨k, -, htype⟩ := ht
        simp [reset_type, htype] at hvars
      · have hsome := hsafe hne.symm b t hb ht
        simp [hcopy] at hsome
    | some v =>
      refine iff_of_true rfl fun _ b' t' hb' ht' => ?_
      obtain rfl := Option.some.inj (hb.symm.trans hb')
      obtain rfl := ht.unique ht'
      simp [hcopy]

theorem step_agrees_iff (hnodup : types.Nodup) (hfits : s.Fits types)
    (hstep : step (VariantLookupTable.dispatch types) types s op = some p) :
    step (VariantRecursive.dispatch types) types s op =
      step (VariantLookupTable.dispatch types) types s op ↔ Safe types s op := by
  cases op with
  | default i => exact iff_of_true rfl trivial
  | value i t args =>
    refine iff_of_true ?_ trivial
    have hempty : ({} : VariantBase C).Fits types := .inl rfl
    simp only [step, emplace_eq hnodup hempty]
  | copy i other =>
    refine iff_of_true ?_ trivial
    simp only [step]
    refine if_congr Iff.rfl (Option.map_congr fun b hb => ?_) rfl
    cases hempty : b.empty with
    | true => rfl
    | false =>
      obtain ⟨t, ht⟩ := (hfits other b hb).holds hempty
      rw [constructCopy_eq hnodup ht, lookupCopy_eq ht]
      cases C.copy t (C.read t b.memory) <;> rfl
  | move i other =>
    refine iff_of_true ?_ trivial
    unfold step
    refine if_congr Iff.rfl (Option.map_congr fun b hb => ?_) rfl
    cases hempty : b.empty with
    | true => rfl
    | false =>
      obtain ⟨t, ht⟩ := (hfits other b hb).holds hempty
      rw [constructMove_eq hnodup ht]
  | emplace i t args =>
    refine iff_of_true ?_ trivial
    simp only [step]
    refine if_congr Iff.rfl (Option.map_congr fun a ha => ?_) rfl
    rw [emplace_eq hnodup (hfits i a ha)]
  | copyAssign i other =>
    exact copyAssign_agrees_iff hnodup hfits hstep
  | moveAssign i other =>
    refine iff_of_true ?_ trivial
    unfold step
    refine Option.bind_congr fun a ha => ?_
    rw [reset_eq hnodup (hfits i a ha)]
    refine Option.map_congr fun b hb => ?_
    cases hempty : b.empty with
    | true => rfl
    | false =>
      obtain ⟨t, ht⟩ := (hfits.reset _ a other b hb).holds hempty
      rw [constructMove_eq hnodup ht]
  | reset i =>
    refine iff_of_true (Option.map_congr fun a ha => ?_) trivial
    rw [reset_eq hnodup (hfits i a ha)]
  | visit i fun_ =>
    refine iff_of_true (Option.map_congr fun a ha => ?_) trivial
    rw [visit_eq hnodup (hfits i a ha)]
  | asPointer i t => exact iff_of_true rfl trivial
  | equal i other | notEqual i other =>
    obtain ⟨a, ha, hrest⟩ := Option.bind_eq_some_iff.mp hstep
    obtain ⟨b, hb, -⟩ := Option.map_eq_some_iff.mp hrest
    have hequal := equal_iff (β := β) hnodup a (hfits other b hb)
    simp [step, Safe, ha, hb, answer, hequal]
  | destroy i => exact iff_of_true rfl trivial

theorem emplace_fits (D : Dispatch C β) (ht : t ∈ types) (args : Option (C.Value t)) :
    (D.emplace types v t args).Fits types := by
  obtain ⟨k, hk, hindex⟩ := exists_indexOf ht 0
  exact .inr ⟨t, k, hk, by simpa [Dispatch.emplace] using hindex⟩

theorem step_fits (hfits : s.Fits types)
    (hstep : step (VariantLookupTable.dispatch types) types s op = some p) : p.Fits types := by
  have hempty : ({} : VariantBase C).Fits types := .inl rfl
  cases op with
  | default i =>
    obtain ⟨-, hp⟩ := Option.ite_none_right_eq_some.mp hstep
    obtain rfl := Option.some.inj hp
    exact (hfits.set hempty).answer _
  | value i t args =>
    obtain ⟨⟨-, ht⟩, hp⟩ := Option.ite_none_right_eq_some.mp hstep
    cases args with
    | none =>
      obtain rfl := Option.some.inj hp
      exact hfits.answer _
    | some v =>
      obtain rfl := Option.some.inj hp
      exact (hfits.set (emplace_fits _ ht _)).answer _
  | copy i other =>
    obtain ⟨-, hp⟩ := Option.ite_none_right_eq_some.mp hstep
    obtain ⟨b, hb, rfl⟩ := Option.map_eq_some_iff.mp hp
    cases hnone : b.empty with
    | true => exact (hfits.set hempty).answer _
    | false =>
      obtain ⟨t, ht⟩ := (hfits other b hb).holds hnone
      rw [lookupCopy_eq ht]
      cases C.copy t (C.read t b.memory) with
      | none => exact hfits.answer _
      | some v =>
        have hfit : (⟨C.construct t v C.zero, b.type⟩ : VariantBase C).Fits types := ht.fits.of_type rfl
        exact (hfits.set hfit).answer _
  | move i other =>
    obtain ⟨-, hp⟩ := Option.ite_none_right_eq_some.mp hstep
    obtain ⟨b, hb, rfl⟩ := Option.map_eq_some_iff.mp hp
    cases hnone : b.empty with
    | true => exact (hfits.set hempty).answer _
    | false =>
      obtain ⟨t, ht⟩ := (hfits other b hb).holds hnone
      have htypes := lookupMove_type (β := β) {} ht
      exact ((hfits.set (ht.fits.of_type htypes.1)).set (.inl htypes.2)).answer _
  | emplace i t args =>
    obtain ⟨ht, hp⟩ := Option.ite_none_right_eq_some.mp hstep
    obtain ⟨a, ha, rfl⟩ := Option.map_eq_some_iff.mp hp
    exact (hfits.set (emplace_fits _ ht _)).answer _
  | copyAssign i other =>
    obtain ⟨a, ha, hrest⟩ := Option.bind_eq_some_iff.mp hstep
    obtain ⟨b, hb, rfl⟩ := Option.map_eq_some_iff.mp hrest
    have hreset := hfits.reset (i := i) (VariantLookupTable.dispatch types) a
    cases hnone : b.empty with
    | true => exact hreset.answer _
    | false =>
      obtain ⟨t, ht⟩ := (hreset other b hb).holds hnone
      have htype := lookupCopy_type (β := β) ((VariantLookupTable.dispatch (β := β) types).reset a) ht
      exact (hreset.set (ht.fits.of_type htype)).answer _
  | moveAssign i other =>
    obtain ⟨a, ha, hrest⟩ := Option.bind_eq_some_iff.mp hstep
    obtain ⟨b, hb, rfl⟩ := Option.map_eq_some_iff.mp hrest
    have hreset := hfits.reset (i := i) (VariantLookupTable.dispatch types) a
    cases hnone : b.empty with
    | true => exact hreset.answer _
    | false =>
      obtain ⟨t, ht⟩ := (hreset other b hb).holds hnone
      have htypes := lookupMove_type (β := β) ((VariantLookupTable.dispatch (β := β) types).reset a) ht
      exact ((hreset.set (ht.fits.of_type htypes.1)).set (.inl htypes.2)).answer _
  | reset i =>
    obtain ⟨a, ha, rfl⟩ := Option.map_eq_some_iff.mp hstep
    exact (hfits.reset _ a).answer _
  | visit i fun_ =>
    obtain ⟨a, ha, rfl⟩ := Option.map_eq_some_iff.mp hstep
    exact (hfits.set ((hfits i a ha).of_type lookupVisit_type)).answer _
  | asPointer i t =>
    obtain ⟨a, ha, rfl⟩ := Option.map_eq_some_iff.mp hstep
    exact hfits.answer _
  | equal i other | notEqual i other =>
    obtain ⟨a, ha, hrest⟩ := Option.bind_eq_some_iff.mp hstep
    obtain ⟨b, hb, rfl⟩ := Option.map_eq_some_iff.mp hrest
    exact hfits.answer _
  | destroy i =>
    obtain ⟨a, ha, rfl⟩ := Option.map_eq_some_iff.mp hstep
    exact hfits.drop.answer _

theorem recursive_unequal (hnodup : types.Nodup) (hfits : s.Fits types) (hsafe : Safe types s op) :
    Unequal (VariantRecursive.dispatch types) s op := by
  cases op with
  | equal i other | notEqual i other =>
    intro a b ha hb hne
    rw [(equal_iff hnodup a (hfits other b hb)).mpr (hsafe a b ha hb), lookupEqual_of_ne hne]
  | _ => trivial

/-- What the two classes promise, taken together. -/
structure Interchangeable (types : List C.Name) (ops : List (VariantOp C β)) : Prop where
  /-- the same variants and the same answers at every point -/
  agree : Runs.Agree (step (VariantRecursive.dispatch types) types)
    (step (VariantLookupTable.dispatch types) types) {} ops
  recursive : Runs.Meets (step (VariantRecursive.dispatch types) types)
    (Unequal (VariantRecursive.dispatch types)) {} ops
  lookup : Runs.Meets (step (VariantLookupTable.dispatch types) types)
    (Unequal (VariantLookupTable.dispatch types)) {} ops

theorem interchangeable_iff {ops : List (VariantOp C β)} (hnodup : types.Nodup)
    (hrun : exec (VariantLookupTable.dispatch types) types {} ops = some p) :
    Interchangeable types ops ↔
      Runs.Meets (step (VariantLookupTable.dispatch types) types) (Safe types) {} ops := by
  have hinit : (⟨fun _ => none, []⟩ : VariantProgram C β).Fits types := by
    intro i v h
    simp at h
  have hagree := Runs.agree_iff (I := Fits types) (fun s a t hs ht => step_fits hs ht)
    (fun s a t hs ht => step_agrees_iff hnodup hs ht) ops {} p hrun hinit
  constructor
  · intro h
    exact hagree.mp h.agree
  · intro hsafe
    have hsame := hagree.mpr hsafe
    refine ⟨hsame, (Runs.Agree.meets ops _ hsame).mpr ?_, ?_⟩
    · exact Runs.meets_imp (fun s a t hs ht => step_fits hs ht)
        (fun s a hs ha => recursive_unequal hnodup hs ha) ops _ hinit hsafe
    · exact Runs.meets_imp (I := fun _ => True) (fun _ _ _ _ _ => trivial)
        (fun s a _ _ => lookup_unequal) ops _ trivial (Runs.meets_true ops _)

/-- `int` and `unsigned`. -/
inductive Integral where
  | int
  | unsigned
  deriving DecidableEq

/-- Both have 32 bits, and all bits are good for both of them. -/
def integral : CppTypes where
  Name := Integral
  Value _ := BitVec 32
  Memory := BitVec 32
  zero := 0
  read _ memory := memory
  construct _ v _ := v
  destroy _ memory := memory
  copy _ v := some v
  move _ v := (v, v)
  equal _ v w := v == w

instance : DecidableEq integral.Name := inferInstanceAs (DecidableEq Integral)

/-- A number is copied, and the copy compared. -/
def copied : List (VariantOp integral Unit) :=
  [.value 0 Integral.unsigned (some (7 : BitVec 32)), .copy 1 0, .equal 0 1]

theorem interchangeable_copied : Interchangeable [Integral.int, Integral.unsigned] copied := by
  have hrun : (exec (VariantLookupTable.dispatch (C := integral) [Integral.int, Integral.unsigned])
      [Integral.int, Integral.unsigned] {} copied).isSome := by decide
  obtain ⟨p, hp⟩ := Option.isSome_iff_exists.mp hrun
  refine (interchangeable_iff (by decide) hp).mpr ⟨trivial, fun s hs => ⟨trivial, fun t ht => ?_⟩⟩
  obtain rfl := Option.some.inj hs
  obtain rfl := Option.some.inj ht
  refine ⟨fun a b ha hb => .inl ?_, fun _ _ => trivial⟩
  obtain rfl := Option.some.inj ha
  obtain rfl := Option.some.inj hb
  rfl

/-- Numbers of different types. -/
def mixed : List (VariantOp integral Unit) :=
  [.value 0 Integral.int (some (1 : BitVec 32)), .value 1 Integral.unsigned (some (1 : BitVec 32)),
    .equal 0 1]

/-- `int 1 == unsigned 1`, and nothing `== int 0`, in `VariantRecursive` only. -/
theorem mixed_equal :
    ¬ Interchangeable [Integral.int, Integral.unsigned] mixed ∧
      (VariantRecursive.dispatch (C := integral) (β := Unit) [Integral.int, Integral.unsigned]).equal
        ⟨(1 : BitVec 32), 0⟩ ⟨(1 : BitVec 32), 1⟩ = true ∧
      (VariantLookupTable.dispatch (C := integral) (β := Unit) [Integral.int, Integral.unsigned]).equal
        ⟨(1 : BitVec 32), 0⟩ ⟨(1 : BitVec 32), 1⟩ = false ∧
      (VariantRecursive.dispatch (C := integral) (β := Unit) [Integral.int, Integral.unsigned]).equal
        {} ⟨(0 : BitVec 32), 0⟩ = true ∧
      (VariantLookupTable.dispatch (C := integral) (β := Unit) [Integral.int, Integral.unsigned]).equal
        {} ⟨(0 : BitVec 32), 0⟩ = false := by
  refine ⟨fun h => ?_, by decide, by decide, by decide, by decide⟩
  obtain ⟨-, hsecond⟩ := h.recursive
  obtain ⟨-, hthird⟩ := hsecond _ rfl
  obtain ⟨hunequal, -⟩ := hthird _ rfl
  have hfalse := hunequal ⟨(1 : BitVec 32), 0⟩ ⟨(1 : BitVec 32), 1⟩ rfl rfl (by decide)
  exact absurd hfalse (by decide)

end VariantProgram

end Jinx
