import Jinx.Argparse

/-! One option at a time: `parse_argv` comes to what it does for one argument, in the record of that name,
    and to what it does without the argument and its options. -/

namespace Jinx.Argparse
open Jinx Jinx.Http Jinx.Record

variable {F α : Type} {a b : Argument F} {O : RecordOf F α} {c : Category F}
  {arguments : List (Argument F)} {argv : List (List Byte)} {s key text name : List Byte}

/-- The record of a name. -/
def recordCell (name : List Byte) : Cell (Category F) (Option (Entry F)) where
  get c := c.find name
  set c v := { c with records := Function.update c.records (hashString name) v }
  get_set := by intro c v; simp [RecordCategory.find]
  set_get := by intro c; simp [RecordCategory.find]
  set_set := by intro c v w; simp

@[simp] theorem recordCell_get : (recordCell name).get c = c.find name := rfl

theorem recordCell_apart {m n : List Byte} (h : hashString n ≠ hashString m) :
    (recordCell (F := F) m).Apart (recordCell n) where
  get := by intro c v; simp [recordCell, RecordCategory.find, h]
  set := by intro c v w; simp [recordCell, Function.update_comm h.symm]

/-! ### The operations of an argument, in its record -/

namespace Argument

/-- `create`, in the record. -/
def created (a : Argument F) (O : RecordOf F α) : Option (Entry F) → Except (Thrown F) (Entry F)
  | none => .ok
    { name := a.name, description := a.desc, typeId := a.recordType O, value := O.store (O.getDefault a) }
  | some old =>
    if a.recordType O ≠ old.typeId then .error (.record (.typeConflict a.name))
    else .ok { old with description := a.desc }

/-- `commit`, in the record. -/
def committed (a : Argument F) (O : RecordOf F α) (write : α → α) (v : Option (Entry F)) :
    Except (Thrown F) (Option (Entry F)) :=
  (a.created O v).map fun r => some { r with value := O.store (write (O.load r.value)) }

/-- `get`, in the record, and a check of what it returns. -/
def checked (a : Argument F) (O : RecordOf F α) (check : α → Except (Thrown F) Unit)
    (v : Option (Entry F)) : Except (Thrown F) (Option (Entry F)) :=
  (a.created O v).bind fun r => (check (O.load r.value)).map fun _ => some r

theorem create_eq : a.create O c =
    (a.created O (c.find a.name)).map fun r => (c.emplace (hashString a.name) r, r) := by
  cases hf : c.find a.name with
  | none =>
    simp [create, RecordCategory.create, RecordCategory.get, hf, created, Except.map, Except.mapError,
      bind, Except.bind, pure, Except.pure]
  | some old =>
    by_cases ht : a.recordType O = old.typeId <;>
      simp [create, RecordCategory.create, RecordCategory.get, hf, ht, created, Except.map,
        Except.mapError, bind, Except.bind, pure, Except.pure]

theorem commit_inside (write : α → α) :
    (recordCell a.name).Inside (a.commit O write) (a.committed O write) := by
  intro c
  simp only [commit, create_eq, committed, recordCell_get]
  cases a.created O (c.find a.name) with
  | error e => rfl
  | ok r => exact congrArg Except.ok (c.emplace_emplace (hashString a.name) r _)

theorem get_inside (check : α → Except (Thrown F) Unit) :
    (recordCell a.name).Inside
      (fun c => do
        let (c, x) ← a.get O c
        check x
        return c)
      (a.checked O check) := by
  intro c
  simp only [get, create_eq, checked, recordCell_get]
  cases a.created O (c.find a.name) with
  | error e => rfl
  | ok r =>
    simp only [Except.map, bind, Except.bind, pure, Except.pure]
    cases check (O.load r.value) <;> rfl

variable [Zero F]

theorem apply_inside (stof : List Byte → Except ConversionError F) (a : Argument F)
    (value : List Byte) : ∃ g, (recordCell a.name).Inside (a.apply stof value) g := by
  unfold apply
  cases a.type with
  | size => exact ⟨_, .after fun n => commit_inside _⟩
  | integer => exact ⟨_, .after fun n => commit_inside _⟩
  | float => exact ⟨_, .after fun x => commit_inside _⟩
  | string => exact ⟨_, commit_inside _⟩
  | bool => exact ⟨_, commit_inside _⟩
  | stringList => exact ⟨_, commit_inside _⟩

theorem validate_inside [LT F] [DecidableLT F] (a : Argument F) :
    ∃ g, (recordCell a.name).Inside a.validate g := by
  unfold validate
  cases a.type with
  | size => exact ⟨_, get_inside _⟩
  | integer => exact ⟨_, get_inside _⟩
  | float => exact ⟨_, get_inside _⟩
  | string => exact ⟨_, get_inside _⟩
  | bool => exact ⟨_, get_inside fun _ => .ok ()⟩
  | stringList => exact ⟨_, get_inside _⟩

end Argument

/-! ### The table of the arguments -/

/-- No other argument of the table has a name of the same hash. -/
structure Alone (arguments : List (Argument F)) (a : Argument F) : Prop where
  mem : a ∈ arguments
  eq_of_hash : ∀ b ∈ arguments, hashString b.name = hashString a.name → b = a

theorem Alone.eq_of_name (h : Alone arguments a) (hb : b ∈ arguments) (hname : b.name = a.name) :
    b = a :=
  h.eq_of_hash b hb (congrArg hashString hname)

theorem Alone.hash_ne (h : Alone arguments a) (hb : b ∈ arguments) (hname : b.name ≠ a.name) :
    hashString b.name ≠ hashString a.name :=
  fun hhash => hname (congrArg Argument.name (h.eq_of_hash b hb hhash))

/-- A condition on names may be asked before or after the table is built. -/
theorem filter_foldl_emplace (p : List Byte → Bool) (l acc : List (Argument F)) :
    (l.foldl emplace acc).filter (fun a => p a.name) =
      (l.filter fun a => p a.name).foldl emplace (acc.filter fun a => p a.name) := by
  induction l generalizing acc with
  | nil => rfl
  | cons b l ih =>
    have hany (hp : p b.name = true) : (acc.filter fun a => p a.name).any (fun a => a.name = b.name) =
        acc.any fun a => a.name = b.name := by
      rw [List.any_filter]
      refine List.any_congr rfl fun a => ?_
      by_cases hn : a.name = b.name <;> simp [hn, hp]
    rw [List.foldl_cons, ih, emplace]
    cases hp : p b.name with
    | false =>
      rw [List.filter_cons_of_neg (by simp [hp])]
      split <;> simp [hp]
    | true =>
      rw [List.filter_cons, if_pos hp, List.foldl_cons, emplace, hany hp]
      split <;> simp [hp]

theorem filter_argsOf (p : List Byte → Bool) (l : List (Argument F)) :
    (argsOf l).filter (fun a => p a.name) = argsOf (l.filter fun a => p a.name) :=
  filter_foldl_emplace p l []

theorem mem_of_mem_foldl_emplace {l acc : List (Argument F)} (h : b ∈ l.foldl emplace acc) :
    b ∈ acc ∨ b ∈ l := by
  induction l generalizing acc with
  | nil => exact .inl h
  | cons d l ih =>
    obtain hacc | hl := ih h
    · rw [emplace] at hacc
      split at hacc
      · exact .inl hacc
      · rw [List.mem_append, List.mem_singleton] at hacc
        exact hacc.imp id fun hd => List.mem_cons.mpr (.inl hd)
    · exact .inr (List.mem_cons_of_mem _ hl)

theorem mem_of_mem_argsOf (h : b ∈ argsOf arguments) : b ∈ arguments :=
  (mem_of_mem_foldl_emplace h).resolve_left (List.not_mem_nil)

/-- One argument, however often. -/
theorem argsOf_eq_singleton {l : List (Argument F)} (hmem : a ∈ l) (hall : ∀ b ∈ l, b = a) :
    argsOf l = [a] := by
  have hrepeat (l : List (Argument F)) (hall : ∀ b ∈ l, b = a) : l.foldl emplace [a] = [a] := by
    induction l with
    | nil => rfl
    | cons b l ih =>
      obtain rfl := hall b List.mem_cons_self
      rw [List.foldl_cons, emplace, if_pos (by simp)]
      exact ih fun d hd => hall d (List.mem_cons_of_mem _ hd)
  cases l with
  | nil => cases hmem
  | cons b l =>
    obtain rfl := hall b List.mem_cons_self
    exact hrepeat l fun d hd => hall d (List.mem_cons_of_mem _ hd)

theorem Alone.filter_argsOf (h : Alone arguments a) :
    (argsOf arguments).filter (fun b => b.name = a.name) = [a] := by
  rw [Argparse.filter_argsOf fun n => n = a.name]
  refine argsOf_eq_singleton (List.mem_filter.mpr ⟨h.mem, by simp⟩) fun b hb => ?_
  rw [List.mem_filter, decide_eq_true_eq] at hb
  exact h.eq_of_name hb.1 hb.2

theorem Alone.find?_argsOf (h : Alone arguments a) :
    (argsOf arguments).find? (fun b => b.name = a.name) = some a := by
  rw [← List.head?_filter, h.filter_argsOf, List.head?_cons]

/-- The table without a name. -/
def withoutArgument (name : List Byte) (arguments : List (Argument F)) : List (Argument F) :=
  arguments.filter fun a => a.name ≠ name

theorem find?_withoutArgument (h : key ≠ name) :
    (argsOf (withoutArgument name arguments)).find? (fun a => a.name = key) =
      (argsOf arguments).find? fun a => a.name = key := by
  rw [withoutArgument, ← filter_argsOf fun n => n ≠ name, List.find?_filter]
  congr 1
  funext a
  by_cases hn : a.name = key <;> simp [hn, h]

/-- The same order, without a name. -/
def Iteration.without (args : Iteration arguments) (name : List Byte) :
    Iteration (withoutArgument name arguments) where
  order := args.order.filter fun a => a.name ≠ name
  perm := by
    rw [withoutArgument, ← filter_argsOf fun n => n ≠ name]
    exact args.perm.filter _

/-- The argument is gone through once. -/
theorem Iteration.filter_order (args : Iteration arguments) (h : Alone arguments a) :
    (args.order.filter fun b => b.name = a.name) = [a] := by
  rw [← List.perm_singleton, ← h.filter_argsOf]
  exact args.perm.filter _

theorem Iteration.mem_arguments {args : Iteration arguments} (h : b ∈ args.order) : b ∈ arguments :=
  mem_of_mem_argsOf (args.perm.mem_iff.mp h)

/-! ### The options of a name -/

/-- The text that an option gives for a name. -/
def textOf (name s : List Byte) : Option (List Byte) :=
  ((splitOption s).filter fun m => m.1 = name).map Prod.snd

/-- The texts that a command line gives for a name. -/
def texts (name : List Byte) (argv : List (List Byte)) : List (List Byte) :=
  (argv.drop 1).filterMap (textOf name)

/-- The command line without the options of a name. -/
def withoutOptions (name : List Byte) (argv : List (List Byte)) : List (List Byte) :=
  argv.take 1 ++ (argv.drop 1).filter fun s => (textOf name s).isNone

@[simp] theorem drop_withoutOptions : (withoutOptions name argv).drop 1 =
    (argv.drop 1).filter fun s => (textOf name s).isNone := by
  cases argv <;> rfl

/-- `--name=text`. -/
def optionString (name text : List Byte) : List Byte := 45 :: 45 :: (name ++ 61 :: text)

theorem eq_optionString (h : splitOption s = some (key, text)) : s = optionString key text := by
  rw [splitOption.eq_def] at h
  split at h
  · rename_i s
    split at h
    · rename_i t ht
      split at h
      · cases h
      · obtain ⟨rfl, rfl⟩ := Prod.mk.inj (Option.some.inj h)
        rw [optionString, ← ht, List.takeWhile_append_dropWhile]
    · cases h
  · cases h

theorem textOf_eq_some : textOf name s = some text ↔ splitOption s = some (name, text) := by
  simp only [textOf, Option.map_eq_some_iff, Option.filter_eq_some_iff, decide_eq_true_eq,
    Prod.exists, exists_eq_right]

/-- An option of the name is one whose key it is. -/
theorem key_ne_of_textOf (h : textOf name s = none) (hs : splitOption s = some (key, text)) :
    key ≠ name := by
  rintro rfl
  rw [textOf_eq_some.mpr hs] at h
  cases h

/-! ### The split -/

/-- What the text of an option does to the record, when `own` is what `apply` does. -/
def textStep (name : List Byte)
    (own : List Byte → Option (Entry F) → Except (Thrown F) (Option (Entry F)))
    (v : Option (Entry F)) (text : List Byte) : Except (Thrown F) (Option (Entry F)) :=
  if isValue text then own text v else .error (.invalidOption (optionString name text))

variable [Zero F] {stof : List Byte → Except ConversionError F}
  {own : List Byte → Option (Entry F) → Except (Thrown F) (Option (Entry F))}
  {check : Option (Entry F) → Except (Thrown F) (Option (Entry F))}

/-- An option of the argument. -/
theorem parseOption_inside (h : Alone arguments a)
    (hown : ∀ text, (recordCell a.name).Inside (a.apply stof text) (own text))
    (hs : textOf a.name s = some text) :
    (recordCell a.name).Inside (fun c => parseOption stof (argsOf arguments) c s)
      fun v => textStep a.name own v text := by
  intro c
  have hsplit := textOf_eq_some.mp hs
  have hstring := eq_optionString hsplit
  cases hv : isValue text with
  | true =>
    have hmatch : regexMatch s = some (a.name, text) := by simp [regexMatch, hsplit, hv]
    simp only [parseOption, hmatch, h.find?_argsOf, textStep, hv, if_true]
    exact hown text c
  | false =>
    have hmatch : regexMatch s = none := by simp [regexMatch, hsplit, hv]
    simp only [parseOption, hmatch, textStep, hv, Bool.false_eq_true, if_false, ← hstring]
    rfl

/-- Every other option. -/
theorem parseOption_outside (h : Alone arguments a) (hs : textOf a.name s = none) :
    (∀ c : Category F, parseOption stof (argsOf arguments) c s =
      parseOption stof (argsOf (withoutArgument a.name arguments)) c s) ∧
      (recordCell a.name).Outside fun c =>
        parseOption stof (argsOf (withoutArgument a.name arguments)) c s := by
  cases hmatch : regexMatch s with
  | none =>
    simp only [parseOption, hmatch]
    exact ⟨fun _ => trivial, fun _ _ => rfl⟩
  | some m =>
    obtain ⟨key, value⟩ := m
    have hkey : key ≠ a.name := key_ne_of_textOf hs (Option.filter_eq_some_iff.mp hmatch).1
    simp only [parseOption, hmatch, find?_withoutArgument hkey]
    refine ⟨fun _ => trivial, ?_⟩
    cases hfind : (argsOf arguments).find? fun b => b.name = key with
    | none => exact fun _ _ => rfl
    | some b =>
      have hb : b ∈ arguments := mem_of_mem_argsOf (List.mem_of_find?_eq_some hfind)
      have hname : b.name = key := by simpa using List.find?_some hfind
      obtain ⟨g, hg⟩ := b.apply_inside stof value
      exact hg.outside (recordCell_apart (h.hash_ne hb (hname ▸ hkey)))

variable [LT F] [DecidableLT F]

/-- The checks, after the options. -/
theorem validate_splits (h : Alone arguments a) (args : Iteration arguments)
    (hcheck : (recordCell a.name).Inside a.validate check) :
    (recordCell a.name).Splits (fun c => args.order.foldlM (fun c arg => arg.validate c) c)
      (fun c => (args.without a.name).order.foldlM (fun c arg => arg.validate c) c) check := by
  let tag (b : Argument F) : Option Unit := if b.name = a.name then some () else none
  have hname (b : Argument F) : tag b = none ↔ b.name ≠ a.name := by simp [tag]
  have hown : ∀ b ∈ args.order, ∀ u, tag b = some u →
      (recordCell a.name).Inside (fun c => b.validate c) fun v => check v := by
    intro b hb u hu
    have hb' : b.name = a.name := by by_contra hn; simp [tag, hn] at hu
    rw [h.eq_of_name (Iteration.mem_arguments hb) hb']
    exact hcheck
  have hothers : ∀ b ∈ args.order, tag b = none → (∀ c, b.validate c = b.validate c) ∧
      (recordCell a.name).Outside fun c => b.validate c := by
    intro b hb hu
    obtain ⟨g, hg⟩ := b.validate_inside
    have hhash := h.hash_ne (Iteration.mem_arguments hb) ((hname b).mp hu)
    exact ⟨fun _ => rfl, hg.outside (recordCell_apart hhash)⟩
  have hrest : args.order.filter (fun b => (tag b).isNone) = (args.without a.name).order := by
    refine List.filter_congr fun b _ => ?_
    rw [Bool.eq_iff_iff, Option.isNone_iff_eq_none, hname, decide_eq_true_iff]
  have htag : args.order.filterMap tag = [()] := by
    have hfilter : args.order.filterMap tag =
        (args.order.filter fun b => b.name = a.name).filterMap fun _ => some () := by
      rw [List.filterMap_filter]
      simp only [decide_eq_true_eq, tag]
    rw [hfilter, args.filter_order h]
    rfl
  have hsplit := Cell.splits_foldlM (l := args.order) tag hown hothers
  rw [hrest, htag] at hsplit
  simpa only [List.foldlM_cons, List.foldlM_nil, bind_pure] using hsplit

/-- `parse_argv` for one argument of the table. -/
theorem parseArgv_splits (argv : List (List Byte)) (h : Alone arguments a) (args : Iteration arguments)
    (hown : ∀ text, (recordCell a.name).Inside (a.apply stof text) (own text))
    (hcheck : (recordCell a.name).Inside a.validate check) :
    (recordCell a.name).Splits (fun c => parseArgv stof argv c arguments args)
      (fun c => parseArgv stof (withoutOptions a.name argv) c (withoutArgument a.name arguments)
        (args.without a.name))
      fun v => (texts a.name argv).foldlM (textStep a.name own) v >>= check := by
  have hoptions := Cell.splits_foldlM (l := argv.drop 1) (textOf a.name)
    (fun s _ text hs => parseOption_inside h hown hs) fun s _ hs => parseOption_outside h hs
  have hsplit := hoptions.bind (validate_splits h args hcheck)
  simp only [parseArgv, drop_withoutOptions]
  exact hsplit

/-- What an option is for: the call returns where the option is `accepted`, and then the record of the
    name holds a value as it should; elsewhere the call throws. -/
structure Delivers (outcome : Except (Thrown F) (Category F)) (name : List Byte) (accepted : Prop)
    (holds : RecordValue F → Prop) : Prop where
  accepts : accepted → ∃ c r, outcome = .ok c ∧ c.find name = some r ∧ holds r.value
  rejects : ¬accepted → ∃ e, outcome = .error e

/-- Where the rest of the command line is accepted, the record of the argument decides. -/
theorem delivers_iff (h : Alone arguments a) (args : Iteration arguments)
    (hown : ∀ text, (recordCell a.name).Inside (a.apply stof text) (own text))
    (hcheck : (recordCell a.name).Inside a.validate check)
    (hrest : ∃ d, parseArgv stof (withoutOptions a.name argv) c (withoutArgument a.name arguments)
      (args.without a.name) = .ok d)
    {accepted : Prop} {holds : RecordValue F → Prop} :
    Delivers (parseArgv stof argv c arguments args) a.name accepted holds ↔
      (accepted → ∃ r, ((texts a.name argv).foldlM (textStep a.name own) (c.find a.name) >>= check) =
        .ok (some r) ∧ holds r.value) ∧
      (¬accepted → ¬∃ v, ((texts a.name argv).foldlM (textStep a.name own) (c.find a.name) >>= check) =
        .ok v) := by
  have hsplit := parseArgv_splits argv h args hown hcheck
  obtain ⟨d, hd⟩ := hrest
  constructor
  · rintro ⟨haccepts, hrejects⟩
    refine ⟨fun hacc => ?_, fun hacc => ?_⟩
    · obtain ⟨c', r, hc', hr, hholds⟩ := haccepts hacc
      exact ⟨r, by rw [← hr]; exact hsplit.own_get hc', hholds⟩
    · rintro ⟨v, hv⟩
      obtain ⟨c', hc', -⟩ := hsplit.exists_ok hd hv
      exact Except.exists_error_iff.mp (hrejects hacc) ⟨c', hc'⟩
  · rintro ⟨haccepts, hrejects⟩
    refine ⟨fun hacc => ?_, fun hacc => ?_⟩
    · obtain ⟨r, hr, hholds⟩ := haccepts hacc
      obtain ⟨c', hc', hget⟩ := hsplit.exists_ok hd hr
      exact ⟨c', r, hc', hget, hholds⟩
    · rw [Except.exists_error_iff]
      rintro ⟨c', hc'⟩
      exact hrejects hacc ⟨_, hsplit.own_get hc'⟩

end Jinx.Argparse
