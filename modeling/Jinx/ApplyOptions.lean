import Jinx.ArgparseCells

/-! `apply_options`: the options come as a map, and each argument is checked right after it is set.

    `parse_argv` sets all arguments in the order of the command line and checks them afterwards. Each
    argument has a record of its own, so the two come to the same. -/

namespace Jinx.Argparse
open Jinx Jinx.Http Jinx.Record

/-- `std::unordered_map<std::string, std::string>`: its pairs, in the order that it has. -/
structure Options where
  pairs : List (List Byte × List Byte)
  nodup : (pairs.map Prod.fst).Nodup

namespace Options

def find (o : Options) (name : List Byte) : Option (List Byte) :=
  (o.pairs.find? fun m => m.1 = name).map Prod.snd

def erase (o : Options) (name : List Byte) : Options where
  pairs := o.pairs.filter fun m => m.1 ≠ name
  nodup := o.nodup.sublist (List.filter_sublist.map Prod.fst)

def empty (o : Options) : Bool := o.pairs.isEmpty

end Options

variable {F : Type} [Zero F] [LT F] [DecidableLT F]

/-- One turn of the `for_each`. -/
def applyArgument (stof : List Byte → Except ConversionError F) (s : Options × Category F)
    (arg : Argument F) : Except (Thrown F) (Options × Category F) :=
  match s.1.find arg.name with
  | some value => do
    let c ← arg.apply stof value s.2
    let c ← arg.validate c
    return (s.1.erase arg.name, c)
  | none => do
    let c ← arg.validate s.2
    return (s.1, c)

/-- `apply_options`. -/
def applyOptions (stof : List Byte → Except ConversionError F) (dict : Options) (c : Category F)
    (arguments : List (Argument F)) : Except (Thrown F) (Category F) := do
  let (dict, c) ← arguments.foldlM (applyArgument stof) (dict, c)
  if dict.empty then return c else .error .unknownOption

namespace Options

variable {o : Options} {name : List Byte}

theorem erase_of_find (h : o.find name = none) : o.erase name = o := by
  have hnone : o.pairs.find? (fun m => m.1 = name) = none := Option.map_eq_none_iff.mp h
  obtain ⟨pairs, nodup⟩ := o
  simp only [erase, mk.injEq, List.filter_eq_self]
  simpa using hnone

/-- The texts that are given for a name: one or none. -/
theorem values_eq (o : Options) (name : List Byte) :
    (o.pairs.filterMap fun m => if m.1 = name then some m.2 else none) = (o.find name).toList := by
  obtain ⟨pairs, nodup⟩ := o
  simp only [find]
  induction pairs with
  | nil => rfl
  | cons m pairs ih =>
    obtain ⟨hm, hpairs⟩ := List.nodup_cons.mp nodup
    by_cases hname : m.1 = name
    · -- the key does not come again
      have hrest : (pairs.filterMap fun m => if m.1 = name then some m.2 else none) = [] := by
        rw [List.filterMap_eq_nil_iff]
        intro k hk
        refine if_neg fun hkey => hm ?_
        rw [hname, ← hkey]
        exact List.mem_map_of_mem hk
      simp [hname, hrest]
    · simpa [hname] using ih hpairs

end Options

variable {stof : List Byte → Except ConversionError F} {a : Argument F} {c d : Category F}
  {arguments : List (Argument F)} {argv : List (List Byte)} {o : Options} {name : List Byte}

/-- What is done for one argument: its text, if there is one, and the check. -/
def Argument.applied (a : Argument F) (stof : List Byte → Except ConversionError F)
    (given : Option (List Byte)) (c : Category F) : Except (Thrown F) (Category F) :=
  given.toList.foldlM (fun c value => a.apply stof value c) c >>= a.validate

theorem applyOptions_nil : applyOptions stof o c [] = .ok d ↔ o.pairs = [] ∧ c = d := by
  obtain ⟨pairs, nodup⟩ := o
  simp only [applyOptions, List.foldlM_nil, pure_bind, Options.empty]
  cases pairs <;> simp

theorem applyOptions_cons : applyOptions stof o c (a :: arguments) =
    a.applied stof (o.find a.name) c >>= fun c => applyOptions stof (o.erase a.name) c arguments := by
  simp only [applyOptions, List.foldlM_cons, applyArgument, Argument.applied]
  cases hfind : o.find a.name with
  | none => simp [Options.erase_of_find hfind]
  | some value => simp

/-! ### The record of one argument -/

section
variable {own : List Byte → Option (Entry F) → Except (Thrown F) (Option (Entry F))}
  {check : Option (Entry F) → Except (Thrown F) (Option (Entry F))}

theorem Argument.applied_splits
    (hown : ∀ text, (recordCell a.name).Inside (a.apply stof text) (own text))
    (hcheck : (recordCell a.name).Inside a.validate check) (given : Option (List Byte)) :
    (recordCell a.name).Splits (a.applied stof given) pure
      fun v => given.toList.foldlM (fun v value => own value v) v >>= check := by
  cases given with
  | none =>
    have happlied : a.applied stof none = fun c => a.validate c := by
      funext c
      simp [Argument.applied]
    rw [happlied]
    exact hcheck.splits
  | some text =>
    have happlied : a.applied stof (some text) = fun c => a.apply stof text c >>= a.validate := by
      funext c
      simp [Argument.applied]
    rw [happlied]
    simpa using (hown text).splits.bind hcheck.splits

/-- Where the names have other hashes, the record is neither read nor written. -/
theorem applyOptions_outside (hne : ∀ b ∈ arguments, hashString b.name ≠ hashString name) :
    (recordCell name).Outside fun c => applyOptions stof o c arguments := by
  induction arguments generalizing o with
  | nil =>
    intro c v
    obtain ⟨pairs, nodup⟩ := o
    cases pairs <;> rfl
  | cons b bs ih =>
    have hb := hne b List.mem_cons_self
    simp only [applyOptions_cons]
    refine Cell.Outside.bind ?_ (ih fun d hd => hne d (List.mem_cons_of_mem _ hd))
    obtain ⟨own, hown⟩ := Classical.axiomOfChoice (b.apply_inside stof)
    obtain ⟨check, hcheck⟩ := b.validate_inside
    have hapart := recordCell_apart (F := F) hb
    unfold Argument.applied
    refine Cell.Outside.bind ?_ (hcheck.outside hapart)
    cases o.find b.name with
    | none => exact Cell.outside_pure
    | some value => simpa using (hown value).outside hapart

theorem applyOptions_splits (hne : ∀ b ∈ arguments, hashString b.name ≠ hashString a.name)
    (hown : ∀ text, (recordCell a.name).Inside (a.apply stof text) (own text))
    (hcheck : (recordCell a.name).Inside a.validate check) :
    (recordCell a.name).Splits (fun c => applyOptions stof o c (a :: arguments))
      (fun c => applyOptions stof (o.erase a.name) c arguments)
      fun v => (o.find a.name).toList.foldlM (fun v value => own value v) v >>= check := by
  have hrest : (recordCell a.name).Outside fun c => applyOptions stof (o.erase a.name) c arguments :=
    applyOptions_outside hne
  have hsplit := (Argument.applied_splits hown hcheck (o.find a.name)).bind hrest.splits
  simpa only [applyOptions_cons, pure_bind, bind_pure] using hsplit

end

/-! ### The map on a command line -/

/-- A pair that can be written as an option. -/
structure Shaped (m : List Byte × List Byte) : Prop where
  key : m.1 ≠ []
  chars : ∀ b ∈ m.1, isKeyChar b = true
  value : isValue m.2 = true

theorem Shaped.splitOption {m : List Byte × List Byte} (h : Shaped m) :
    splitOption (optionString m.1 m.2) = some m := by
  have hdrop : (m.1 ++ 61 :: m.2).dropWhile isKeyChar = 61 :: m.2 := by
    rw [List.dropWhile_append_of_pos h.chars]
    rfl
  have htake : (m.1 ++ 61 :: m.2).takeWhile isKeyChar = m.1 := by
    rw [List.takeWhile_append_of_pos h.chars]
    simp [show isKeyChar 61 = false from rfl]
  simp only [optionString, Argparse.splitOption, hdrop, htake, if_neg h.key]

theorem Shaped.textOf {m : List Byte × List Byte} (h : Shaped m) :
    textOf name (optionString m.1 m.2) = if m.1 = name then some m.2 else none := by
  rw [Argparse.textOf, h.splitOption]
  obtain ⟨key, value⟩ := m
  by_cases hname : key = name <;> simp [hname]

/-- The command line gives the options of the map, in any order. -/
structure Renders (argv : List (List Byte)) (o : Options) : Prop where
  shaped : ∀ m ∈ o.pairs, Shaped m
  perm : (argv.drop 1).Perm (o.pairs.map fun m => optionString m.1 m.2)

theorem Renders.texts (h : Renders argv o) (name : List Byte) : texts name argv = (o.find name).toList := by
  have hperm := h.perm.filterMap (textOf name)
  rw [List.filterMap_map, ← Argparse.texts] at hperm
  have heq : o.pairs.filterMap (textOf name ∘ fun m => optionString m.1 m.2) = (o.find name).toList := by
    rw [← o.values_eq name]
    exact List.filterMap_congr fun m hm => (h.shaped m hm).textOf
  rw [heq] at hperm
  cases hfind : o.find name with
  | none =>
    rw [hfind] at hperm
    exact List.perm_nil.mp hperm
  | some value =>
    rw [hfind] at hperm
    exact List.perm_singleton.mp hperm

theorem Renders.without (h : Renders argv o) (name : List Byte) :
    Renders (withoutOptions name argv) (o.erase name) where
  shaped m hm := h.shaped m (List.mem_filter.mp hm).1
  perm := by
    rw [drop_withoutOptions]
    refine (h.perm.filter _).trans ?_
    rw [List.filter_map]
    refine .of_eq (congrArg _ (List.filter_congr fun m hm => ?_))
    simp only [Function.comp_apply, (h.shaped m hm).textOf]
    split <;> simp_all

theorem Renders.isValue {value : List Byte} (h : Renders argv o) (hfind : o.find name = some value) :
    isValue value = true := by
  obtain ⟨m, hm, rfl⟩ := Option.map_eq_some_iff.mp hfind
  exact (h.shaped m (List.mem_of_find?_eq_some hm)).value

omit [Zero F] [LT F] [DecidableLT F] in
/-- What the text does to the record is what `apply` does: the regular expression accepts it. -/
theorem Renders.foldlM_textStep (h : Renders argv o)
    (own : List Byte → Option (Entry F) → Except (Thrown F) (Option (Entry F))) (v : Option (Entry F)) :
    (Argparse.texts name argv).foldlM (textStep name own) v =
      (o.find name).toList.foldlM (fun v value => own value v) v := by
  rw [h.texts]
  cases hfind : o.find name with
  | none => rfl
  | some value => simp [textStep, h.isValue hfind]

/-! ### The two agree -/

/-- The names of the table have different hashes. -/
def Distinct (arguments : List (Argument F)) : Prop := (arguments.map fun a => hashString a.name).Nodup

instance (arguments : List (Argument F)) : Decidable (Distinct arguments) :=
  inferInstanceAs (Decidable (List.Nodup _))

omit [Zero F] [LT F] [DecidableLT F] in
theorem Distinct.ne (h : Distinct (a :: arguments)) :
    ∀ b ∈ arguments, hashString b.name ≠ hashString a.name := by
  intro b hb heq
  have hmem : hashString b.name ∈ arguments.map fun a => hashString a.name := List.mem_map_of_mem hb
  rw [heq] at hmem
  exact (List.nodup_cons.mp h).1 hmem

omit [Zero F] [LT F] [DecidableLT F] in
theorem Distinct.alone (h : Distinct (a :: arguments)) : Alone (a :: arguments) a where
  mem := List.mem_cons_self
  eq_of_hash b hb heq := (List.mem_cons.mp hb).resolve_right fun hmem => h.ne b hmem heq

omit [Zero F] [LT F] [DecidableLT F] in
theorem Distinct.without (h : Distinct (a :: arguments)) :
    withoutArgument a.name (a :: arguments) = arguments := by
  rw [withoutArgument, List.filter_cons_of_neg (by simp), List.filter_eq_self]
  intro b hb
  exact decide_eq_true fun heq => h.ne b hb (congrArg hashString heq)

theorem parseArgv_nil (args : Iteration []) :
    parseArgv stof argv c [] args = .ok d ↔ argv.drop 1 = [] ∧ c = d := by
  have horder : args.order = [] := List.perm_nil.mp args.perm
  cases hargv : argv.drop 1 with
  | nil => simp [parseArgv, hargv, horder]
  | cons string strings =>
    have hparse : ∃ e, parseOption stof (argsOf []) c string = .error e := by
      unfold parseOption
      split
      · exact ⟨_, rfl⟩
      · exact ⟨_, rfl⟩
    obtain ⟨e, he⟩ := hparse
    simp [parseArgv, hargv, List.foldlM_cons, he]

/-- A map and a command line with the same options: whatever the order of the map, of the command line
    and of the checks, one call returns where the other does, with the same records. -/
theorem applyOptions_iff_parseArgv (stof : List Byte → Except ConversionError F) (c d : Category F)
    {dict : Options} (hrenders : Renders argv dict) (hdistinct : Distinct arguments)
    (args : Iteration arguments) :
    applyOptions stof dict c arguments = .ok d ↔ parseArgv stof argv c arguments args = .ok d := by
  induction arguments generalizing argv dict c d with
  | nil =>
    rw [applyOptions_nil, parseArgv_nil]
    refine and_congr_left' ⟨fun hpairs => ?_, fun hdrop => ?_⟩
    · exact List.perm_nil.mp (by simpa [hpairs] using hrenders.perm)
    · have hperm := hrenders.perm
      rw [hdrop] at hperm
      exact List.map_eq_nil_iff.mp (List.nil_perm.mp hperm)
  | cons a as ih =>
    obtain ⟨own, hown⟩ := Classical.axiomOfChoice (a.apply_inside stof)
    obtain ⟨check, hcheck⟩ := a.validate_inside
    have happly := applyOptions_splits (o := dict) hdistinct.ne hown hcheck
    have hparse := parseArgv_splits argv hdistinct.alone args hown hcheck
    rw [happly.ok_iff, hparse.ok_iff]
    have hrest : ∀ l, l = as → ∀ args' : Iteration l, ∀ c d,
        applyOptions stof (dict.erase a.name) c as = .ok d ↔
          parseArgv stof (withoutOptions a.name argv) c l args' = .ok d := by
      rintro l rfl args' c d
      exact ih c d (hrenders.without a.name) (List.nodup_cons.mp hdistinct).2 args'
    refine exists_congr fun d' => exists_congr fun v => ?_
    rw [hrest _ hdistinct.without (args.without a.name), hrenders.foldlM_textStep]

/-- "--int=7" and "--verbose=ok", against a table with the two in the other order. -/
theorem applyOptions_iff_parseArgv_seven :
    let table : List (Argument Float32) :=
      [.ofBool [118, 101, 114, 98, 111, 115, 101] false [] false, .ofInt [105, 110, 116] 0 0 100 [] false]
    let dict : Options := ⟨[([105, 110, 116], [55]), ([118, 101, 114, 98, 111, 115, 101], [111, 107])], by decide⟩
    ∃ d, applyOptions (fun _ => .error .invalidArgument) dict {} table = .ok d := by
  intro table dict
  have hrenders : Renders [[116], [45, 45, 118, 101, 114, 98, 111, 115, 101, 61, 111, 107],
      [45, 45, 105, 110, 116, 61, 55]] dict := by
    refine ⟨?_, .swap ..⟩
    intro m hm
    obtain rfl | hm := List.mem_cons.mp hm
    · exact ⟨by decide, List.all_eq_true.mp (by decide), by decide⟩
    · obtain rfl := List.mem_singleton.mp hm
      exact ⟨by decide, List.all_eq_true.mp (by decide), by decide⟩
  have hdistinct : Distinct table := by decide
  exact ⟨_, (applyOptions_iff_parseArgv _ {} _ hrenders hdistinct ⟨table, .refl _⟩).mpr rfl⟩

end Jinx.Argparse
