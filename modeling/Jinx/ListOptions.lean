import Jinx.ArgparseCells

/-! Arguments of the type `TypeStringList`.

    `apply` collects the values in a record of a list; `validate` asks for a record of a string under the
    same name, and so does not see what was collected. -/

namespace Jinx.Argparse
open Jinx Jinx.Http Jinx.Record

namespace Argument

variable {F : Type} {a : Argument F} {l : List (List Byte)} {ts : List (List Byte)} {text : List Byte}
  {v : Option (Entry F)}

/-- `apply` of a list, in the record. -/
def collected (a : Argument F) (text : List Byte) (v : Option (Entry F)) :
    Except (Thrown F) (Option (Entry F)) :=
  a.committed stringList (· ++ [text]) v

/-- `validate` of a list, in the record. -/
def measured (a : Argument F) (v : Option (Entry F)) : Except (Thrown F) (Option (Entry F)) :=
  a.checked string (a.checkSize "list") v

/-- The record that `apply` makes. -/
def listed (a : Argument F) (l : List (List Byte)) : Entry F where
  name := a.name
  description := a.desc
  typeId := ⟨a.secret, .stringList⟩
  value := .stringList l

theorem collected_none : a.collected text none = .ok (some (a.listed (a.stringListDefault ++ [text]))) :=
  rfl

theorem collected_listed :
    a.collected text (some (a.listed l)) = .ok (some (a.listed (l ++ [text]))) := by
  simp [collected, committed, created, listed, recordType, stringList, Except.map]

/-- `apply` appends the values one by one. -/
theorem foldlM_listed_eq_ok :
    ts.foldlM (textStep a.name a.collected) (some (a.listed l)) = .ok v ↔
      (∀ t ∈ ts, isValue t = true) ∧ v = some (a.listed (l ++ ts)) := by
  induction ts generalizing l with
  | nil =>
    rw [List.foldlM_nil, Except.pure_eq_ok, List.append_nil]
    exact ⟨fun h => ⟨fun _ ht => absurd ht List.not_mem_nil, h.symm⟩, fun h => h.2.symm⟩
  | cons t ts ih =>
    cases hval : isValue t with
    | false => simp [textStep, hval]
    | true => simp [textStep, hval, collected_listed, ih]

/-- The list is the default and the values. -/
theorem foldlM_collected_eq_ok (hne : ts ≠ []) :
    ts.foldlM (textStep a.name a.collected) none = .ok v ↔
      (∀ t ∈ ts, isValue t = true) ∧ v = some (a.listed (a.stringListDefault ++ ts)) := by
  cases ts with
  | nil => exact absurd rfl hne
  | cons t ts =>
    cases hval : isValue t with
    | false => simp [textStep, hval]
    | true => simp [textStep, hval, collected_none, foldlM_listed_eq_ok]

/-- A list is a record of another type than the one that is asked for. -/
theorem measured_listed : a.measured (some (a.listed l)) = .error (.record (.typeConflict a.name)) := by
  simp [measured, checked, created, listed, recordType, string, Except.bind]

/-- The record that `validate` makes, when there is none. -/
def unlisted (a : Argument F) : Entry F where
  name := a.name
  description := a.desc
  typeId := ⟨a.secret, .string⟩
  value := .string a.stringDefault

/-- Where the option is not given, the bounds are asked of a string. -/
theorem measured_none : a.measured none = .ok v ↔
    ¬(a.stringDefault.length < a.stringMin.toNat ∨ a.stringMax.toNat < a.stringDefault.length) ∧
      v = some a.unlisted := by
  have hcreated : a.created string none = .ok a.unlisted := rfl
  have hload : string.load a.unlisted.value = a.stringDefault := rfl
  rw [measured, checked, hcreated, Except.bind, hload, Except.map_eq_ok, checkSize]
  split
  · rename_i hout
    simp [hout]
  · rename_i hin
    simp [hin, eq_comm]

end Argument

variable {F : Type} [Zero F] {stof : List Byte → Except ConversionError F}
  {arguments : List (Argument F)} {argv : List (List Byte)} {c : Category F} {a : Argument F}
  {name desc : List Byte} {d : List (List Byte)} {min max : UInt64} {secret : Bool}

theorem apply_list (ht : a.type = .stringList) (text : List Byte) :
    (recordCell a.name).Inside (a.apply stof text) (a.collected text) := by
  unfold Argument.apply
  simp only [ht]
  exact Argument.commit_inside _

variable [LT F] [DecidableLT F]

theorem validate_list (ht : a.type = .stringList) :
    (recordCell a.name).Inside a.validate a.measured := by
  unfold Argument.validate
  simp only [ht]
  exact Argument.get_inside _

/-- The list has as many elements as the bounds say. -/
def CountWithin (min max : UInt64) (l : List (List Byte)) : Prop :=
  min.toNat ≤ l.length ∧ l.length ≤ max.toNat

/-- An option of a list collects its values if and only if their number is out of the bounds, so that the
    call is to throw, and, when it is not given, the least number is not 0. -/
theorem list_option_iff (ha : a = .ofStringList name d min max desc secret)
    (h : Alone arguments a) (args : Iteration arguments)
    (hrest : ∃ c', parseArgv stof (withoutOptions a.name argv) c (withoutArgument a.name arguments)
      (args.without a.name) = .ok c')
    (hrecord : c.find a.name = none) :
    Delivers (parseArgv stof argv c arguments args) a.name (CountWithin min max (d ++ texts a.name argv))
      (fun value => value = .stringList (d ++ texts a.name argv)) ↔
      ¬CountWithin min max (d ++ texts a.name argv) ∧ (texts a.name argv = [] → 0 < min) := by
  have htype : a.type = .stringList := by rw [ha]; rfl
  rw [delivers_iff h args (apply_list htype) (validate_list htype) hrest, hrecord]
  generalize texts a.name argv = ts
  by_cases hts : ts = []
  · subst hts
    have hstring : a.unlisted.value ≠ .stringList d := by simp [Argument.unlisted]
    have hempty : ¬(a.stringDefault.length < a.stringMin.toNat ∨
        a.stringMax.toNat < a.stringDefault.length) ↔ ¬0 < min := by
      rw [ha, UInt64.lt_iff_toNat_lt]
      simp [Argument.ofStringList, Argument.init]
    simp only [List.foldlM_nil, pure_bind, Argument.measured_none, hempty, List.append_nil]
    constructor
    · rintro ⟨haccepts, hrejects⟩
      have hnot : ¬CountWithin min max d := by
        intro hcount
        obtain ⟨r, ⟨-, hr⟩, hvalue⟩ := haccepts hcount
        obtain rfl := Option.some.inj hr
        exact hstring hvalue
      exact ⟨hnot, fun _ => by_contra fun hmin => hrejects hnot ⟨_, hmin, rfl⟩⟩
    · rintro ⟨hnot, hmin⟩
      exact ⟨fun hcount => absurd hcount hnot, fun _ ⟨_, hzero, _⟩ => hzero (hmin trivial)⟩
  · have hthrows (v : Option (Entry F)) :
        ts.foldlM (textStep a.name a.collected) none >>= a.measured ≠ .ok v := by
      intro hv
      obtain ⟨v', hv', hmeasured⟩ := Except.bind_eq_ok.mp hv
      obtain ⟨-, rfl⟩ := (Argument.foldlM_collected_eq_ok hts).mp hv'
      rw [Argument.measured_listed] at hmeasured
      cases hmeasured
    simp [hthrows, hts]

/-- "--list=a" where two elements are asked for. -/
theorem list_option_too_few :
    let argv : List (List Byte) := [[116], [45, 45, 108, 105, 115, 116, 61, 97]]
    let a : Argument Float32 := .ofStringList [108, 105, 115, 116] [] 2 3 [] true
    Delivers (parseArgv (fun _ => .error .invalidArgument) argv {} [a] ⟨[a], .refl _⟩) a.name
      (CountWithin 2 3 ([] ++ texts a.name argv))
      (fun value => value = .stringList ([] ++ texts a.name argv)) := by
  intro argv a
  have halone : Alone [a] a := ⟨List.mem_cons_self, fun b hb _ => List.mem_singleton.mp hb⟩
  refine (list_option_iff rfl halone _ ⟨{}, rfl⟩ rfl).mpr ⟨?_, by decide⟩
  rintro ⟨htwo, -⟩
  revert htwo
  decide

/-- With the bounds 0 and 5 "--list=a" throws, and without an option the record holds no list. -/
theorem list_option_not_collected :
    let argument (secret : Bool) : Argument Float32 := .ofStringList [108, 105, 115, 116] [] 0 5 [] secret
    ∀ secret, ∀ argv ∈ [[[116]], [[116], [45, 45, 108, 105, 115, 116, 61, 97]]],
      let a := argument secret
      ¬Delivers (parseArgv (fun _ => .error .invalidArgument) argv {} [a] ⟨[a], .refl _⟩) a.name
        (CountWithin 0 5 ([] ++ texts a.name argv))
        (fun value => value = .stringList ([] ++ texts a.name argv)) := by
  intro argument secret argv hargv a hdelivers
  let outcome (argv : List (List Byte)) :=
    parseArgv (fun _ => .error .invalidArgument) argv {} [a] ⟨[a], .refl _⟩
  obtain rfl | hargv := List.mem_cons.mp hargv
  · obtain ⟨c, r, hc, hr, hvalue⟩ := hdelivers.accepts
      (by cases secret <;> exact ⟨by decide, by decide⟩)
    have hstring : (outcome [[116]]).map (fun c => (c.find a.name).map RecordAbstract.value) =
        .ok (some (.string [])) := by
      cases secret <;> rfl
    rw [show outcome [[116]] = .ok c from hc, Except.map, hr, Option.map_some, hvalue] at hstring
    cases hstring
  · obtain rfl := List.mem_singleton.mp hargv
    obtain ⟨c, r, hc, -⟩ := hdelivers.accepts
      (by cases secret <;> exact ⟨by decide, by decide⟩)
    have hthrows : (outcome [[116], [45, 45, 108, 105, 115, 116, 61, 97]]).isOk = false := by
      cases secret <;> rfl
    rw [show outcome _ = .ok c from hc] at hthrows
    cases hthrows

end Jinx.Argparse
