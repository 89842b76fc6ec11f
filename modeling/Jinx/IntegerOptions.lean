import Jinx.ArgparseCells

/-! Arguments of the types `TypeSize` and `TypeInteger`: which texts `parse_argv` accepts for them.

    `stoul` takes the numeral that a text begins with and the assignment takes it modulo the size of the
    type, so what is compared with the bounds is not what the text says. -/

namespace Jinx.Argparse
open Jinx Jinx.Http Jinx.Record

/-- The numeral that a text begins with, behind blanks. -/
def leading (text : List Byte) : Option Int := Numeral.initial (text.dropWhile isSpace)

/-- The text is not matched by the regular expression, or not converted by `stoul`. -/
def Refused (text : List Byte) : Prop :=
  isValue text = false ∨ ∀ z, leading text = some z → UInt64.size ≤ z.natAbs

variable {F : Type}

/-- The number that a record holds. -/
def RecordValue.number : RecordValue F → Option Int
  | .size n => some n.toNat
  | .int i => some i.toInt
  | _ => none

namespace Argument

/-- A number is within the bounds of the argument. -/
def Within (a : Argument F) (z : Int) : Prop :=
  match a.type with
  | .size => a.sizeMin.toNat ≤ z ∧ z ≤ a.sizeMax.toNat
  | .integer => a.intMin.toInt ≤ z ∧ z ≤ a.intMax.toInt
  | _ => False

/-- What the type of the argument keeps of a number. -/
def narrowed (a : Argument F) (z : Int) : Int :=
  match a.type with
  | .integer => z.bmod Int32.size
  | _ => z % UInt64.size

/-- The whole of every text is a numeral whose value is within the bounds. -/
def Numerals (a : Argument F) (ts : List (List Byte)) : Prop :=
  ∀ t ∈ ts, ∃ z, Numeral.whole t = some z ∧ a.Within z

/-- What `parse_argv` accepts: every text is converted, and what is kept of the last one is within the
    bounds. -/
def Reads (a : Argument F) (ts : List (List Byte)) : Prop :=
  (∀ t ∈ ts, ¬Refused t) ∧
    ∃ t z, ts.getLast? = some t ∧ leading t = some z ∧ a.Within (a.narrowed z)

/-- The type of the record that `apply` asks for. -/
def kind (a : Argument F) : RecordKind :=
  match a.type with
  | .size => .size
  | .float => .float
  | .bool => .bool
  | .integer => .int
  | .string => .string
  | .stringList => .stringList

end Argument

/-! ### Numbers -/

variable {text t : List Byte} {ts : List (List Byte)} {z : Int} {n : UInt64} {a : Argument F}

theorem ofInt_natCast (k : Nat) : UInt64.ofInt k = UInt64.ofNat k := by
  apply UInt64.toNat.inj
  rw [UInt64.ofInt, UInt64.toNat_ofNat', UInt64.toNat_ofNat']
  omega

theorem ofInt_signed (negative : Bool) (k : Nat) : UInt64.ofInt (Numeral.signed negative k) =
    if negative then -UInt64.ofNat k else UInt64.ofNat k := by
  cases negative <;> simp [Numeral.signed, ofInt_natCast]

/-- `stoul`, in terms of the number that the text begins with. -/
theorem stoul_eq_ok : stoul text = .ok n ↔
    ∃ z, leading text = some z ∧ z.natAbs < UInt64.size ∧ UInt64.ofInt z = n := by
  simp only [stoul, leading, Numeral.initial]
  generalize Numeral.sign (text.dropWhile isSpace) = p
  obtain ⟨negative, s⟩ := p
  by_cases hdigits : s.takeWhile Numeral.isDigit = []
  · simp [hdigits]
  · simp only [hdigits, if_false, Option.some.injEq, exists_eq_left', Numeral.natAbs_signed,
      ofInt_signed]
    by_cases hsize : UInt64.size ≤ Numeral.value (s.takeWhile Numeral.isDigit)
    · simp [hsize, Nat.not_lt.mpr hsize]
    · simp [hsize, Nat.not_le.mp hsize]

theorem not_refused : ¬Refused t ↔ isValue t = true ∧ ∃ n, stoul t = .ok n := by
  simp only [Refused, stoul_eq_ok, not_or, Bool.not_eq_false, not_forall, Nat.not_le]
  constructor
  · rintro ⟨hv, z, hz, hlt⟩
    exact ⟨hv, UInt64.ofInt z, z, hz, hlt, rfl⟩
  · rintro ⟨hv, n, z, hz, hlt, -⟩
    exact ⟨hv, z, hz, hlt⟩

theorem toNat_ofInt (z : Int) : ((UInt64.ofInt z).toNat : Int) = z % UInt64.size := by
  rw [UInt64.ofInt, UInt64.toNat_ofNat', UInt64.size]
  omega

/-- The assignment of an `unsigned long` to an `int`. -/
theorem toInt_narrow (z : Int) : (UInt64.ofInt z).toUInt32.toInt32.toInt = z.bmod Int32.size := by
  have hnat (k : Nat) : (UInt32.ofNat k).toInt32.toInt = (k : Int).bmod Int32.size :=
    Int32.toInt_ofNat'
  rw [UInt64.ofInt, UInt64.toUInt32_ofNat', hnat, ← Int.emod_bmod, ← Int.emod_bmod z]
  congr 1
  rw [Int32.size]
  omega

/-- A numeral is a value for the regular expression. -/
theorem isValue_of_whole (h : Numeral.whole t = some z) : isValue t = true := by
  simp only [isValue, Bool.and_eq_true, decide_eq_true_eq, List.all_eq_true, bne_iff_ne]
  refine ⟨Numeral.ne_nil_of_whole h, fun c hc => ?_⟩
  have h43 := Numeral.le_of_whole h hc
  constructor <;> rintro rfl <;> revert h43 <;> decide

theorem isSpace_eq_false (c : Byte) (h : 43 ≤ c) : isSpace c = false := by
  rw [isSpace, Bool.or_eq_false_iff, Bool.and_eq_false_iff, beq_eq_false_iff_ne,
    decide_eq_false_iff_not, decide_eq_false_iff_not]
  refine ⟨?_, .inr fun h13 => ?_⟩
  · rintro rfl
    revert h
    decide
  · have hle : (43 : Byte) ≤ 13 := UInt8.le_trans h h13
    revert hle
    decide

theorem leading_of_whole (h : Numeral.whole t = some z) : leading t = some z := by
  rw [leading, Numeral.dropWhile_of_whole isSpace_eq_false h, Numeral.initial_of_whole h]

/-- What is within the bounds is kept as it is. -/
theorem Argument.narrowed_of_within (h : a.Within z) :
    z.natAbs < UInt64.size ∧ a.narrowed z = z := by
  unfold Within at h
  unfold narrowed
  cases ht : a.type with
  | size =>
    simp only [ht] at h ⊢
    have hlt := a.sizeMax.toNat_lt_size
    simp only [UInt64.size] at hlt ⊢
    omega
  | integer =>
    simp only [ht] at h ⊢
    have hle := a.intMin.le_toInt
    have hlt := a.intMax.toInt_lt
    rw [UInt64.size, Int32.size, Int.bmod_eq_of_le (by omega) (by omega)]
    omega
  | float | bool | string | stringList => simp only [ht] at h

/-- Numerals within the bounds are accepted, and kept as what they say. -/
theorem Argument.Numerals.reads (h : a.Numerals ts) (hne : ts ≠ []) : a.Reads ts := by
  refine ⟨fun t ht => ?_, ?_⟩
  · obtain ⟨z, hz, hwithin⟩ := h t ht
    rw [not_refused]
    refine ⟨isValue_of_whole hz, UInt64.ofInt z, stoul_eq_ok.mpr ?_⟩
    exact ⟨z, leading_of_whole hz, (narrowed_of_within hwithin).1, rfl⟩
  · obtain ⟨z, hz, hwithin⟩ := h _ (List.getLast_mem hne)
    refine ⟨_, z, List.getLast?_eq_some_getLast hne, leading_of_whole hz, ?_⟩
    rw [(narrowed_of_within hwithin).2]
    exact hwithin

/-! ### The record -/

/-- How the values of a type stand for the numbers of an argument. -/
structure Integral (a : Argument F) (α : Type) [LT α] [DecidableLT α] extends RecordOf F α where
  ofULong : UInt64 → α
  toInt : α → Int
  min : α
  max : α
  load_store : ∀ x, load (store x) = x
  number_store : ∀ x, (store x).number = some (toInt x)
  toInt_ofULong : ∀ z, toInt (ofULong (UInt64.ofInt z)) = a.narrowed z
  within_iff : ∀ x, a.Within (toInt x) ↔ ¬(x < min ∨ max < x)

def Integral.size (h : a.type = .size) : Integral a UInt64 where
  toRecordOf := sizeT
  ofULong n := n
  toInt n := n.toNat
  min := a.sizeMin
  max := a.sizeMax
  load_store _ := rfl
  number_store _ := rfl
  toInt_ofULong z := by rw [toNat_ofInt, Argument.narrowed, h]
  within_iff x := by
    simp only [Argument.Within, h, UInt64.lt_iff_toNat_lt]
    omega

def Integral.int (h : a.type = .integer) : Integral a Int32 where
  toRecordOf := Argparse.int
  ofULong n := n.toUInt32.toInt32
  toInt := Int32.toInt
  min := a.intMin
  max := a.intMax
  load_store _ := rfl
  number_store _ := rfl
  toInt_ofULong z := by rw [toInt_narrow, Argument.narrowed, h]
  within_iff x := by
    simp only [Argument.Within, h, Int32.lt_iff_toInt_lt]
    omega

namespace Integral

variable {α : Type} [LT α] [DecidableLT α] (I : Integral a α) {v v' : Option (Entry F)} {x : α}

/-- `apply`, in the record. -/
def own (text : List Byte) (v : Option (Entry F)) : Except (Thrown F) (Option (Entry F)) :=
  ((stoul text).mapError (.conversion "stoul")).bind fun n =>
    a.committed I.toRecordOf (fun _ => I.ofULong n) v

/-- `validate`, in the record. -/
def check (v : Option (Entry F)) : Except (Thrown F) (Option (Entry F)) :=
  a.checked I.toRecordOf (a.checkRange I.toRecordOf I.min I.max) v

/-- The record after `create`, when there is none of another type. -/
def entry (v : Option (Entry F)) : Entry F :=
  match v with
  | none =>
    { name := a.name, description := a.desc, typeId := a.recordType I.toRecordOf,
      value := I.store (I.getDefault a) }
  | some old => { old with description := a.desc }

/-- The record after `commit`. -/
def holding (v : Option (Entry F)) (x : α) : Entry F := { I.entry v with value := I.store x }

/-- A record of the type of the argument, or none. -/
def Fits (v : Option (Entry F)) : Prop := ∀ r, v = some r → r.typeId = a.recordType I.toRecordOf

theorem created_eq (hv : I.Fits v) : a.created I.toRecordOf v = .ok (I.entry v) := by
  cases v with
  | none => rfl
  | some old => simp [Argument.created, entry, hv old rfl]

theorem fits_holding (hv : I.Fits v) : I.Fits (some (I.holding v x)) := by
  rintro r ⟨⟩
  cases v with
  | none => rfl
  | some old => exact hv old rfl

theorem holding_holding {y : α} : I.holding (some (I.holding v x)) y = I.holding v y := by
  cases v <;> rfl

theorem textStep_eq_ok {text : List Byte} (hv : I.Fits v) :
    textStep a.name I.own v text = .ok v' ↔
      ∃ n, (isValue text = true ∧ stoul text = .ok n) ∧ v' = some (I.holding v (I.ofULong n)) := by
  cases hval : isValue text with
  | false => simp [textStep, hval]
  | true =>
    cases hread : stoul text with
    | error e => simp [textStep, hval, own, hread, Except.mapError, Except.bind]
    | ok n =>
      simp [textStep, hval, own, hread, Except.mapError, Except.bind, Argument.committed,
        I.created_eq hv, Except.map, holding, eq_comm]

/-- The texts: all of them are converted, and the last one stays. -/
theorem foldlM_eq_ok (t : List Byte) (hv : I.Fits v) :
    (ts ++ [t]).foldlM (textStep a.name I.own) v = .ok v' ↔
      (∀ s ∈ ts, ¬Refused s) ∧
        ∃ n, (isValue t = true ∧ stoul t = .ok n) ∧ v' = some (I.holding v (I.ofULong n)) := by
  induction ts generalizing v with
  | nil => simp [I.textStep_eq_ok hv]
  | cons s ts ih =>
    simp only [List.cons_append, List.foldlM_cons, Except.bind_eq_ok, I.textStep_eq_ok hv,
      List.forall_mem_cons, not_refused (t := s)]
    constructor
    · rintro ⟨v₁, ⟨n, ⟨hval, hread⟩, rfl⟩, hrest⟩
      obtain ⟨hts, m, ht, rfl⟩ := (ih (I.fits_holding hv)).mp hrest
      exact ⟨⟨⟨hval, n, hread⟩, hts⟩, m, ht, by rw [I.holding_holding]⟩
    · rintro ⟨⟨⟨hval, n, hread⟩, hts⟩, m, ht, rfl⟩
      refine ⟨_, ⟨n, ⟨hval, hread⟩, rfl⟩, (ih (I.fits_holding hv)).mpr ?_⟩
      exact ⟨hts, m, ht, by rw [I.holding_holding]⟩

theorem check_holding (hv : I.Fits v) : I.check (some (I.holding v x)) = .ok v' ↔
    a.Within (I.toInt x) ∧ v' = some (I.holding v x) := by
  have hentry : I.entry (some (I.holding v x)) = I.holding v x := by cases v <;> rfl
  have hload : I.load (I.holding v x).value = x := I.load_store x
  rw [check, Argument.checked, I.created_eq (I.fits_holding hv), hentry, I.within_iff]
  by_cases hrange : x < I.min ∨ I.max < x
  · simp [Except.bind, Except.map, Argument.checkRange, hload, hrange]
  · simp [Except.bind, Except.map, Argument.checkRange, hload, hrange, eq_comm]

/-- What `parse_argv` does in the record of the argument, when the option is given. -/
theorem own_eq_ok (hne : ts ≠ []) (hv : I.Fits v) :
    (ts.foldlM (textStep a.name I.own) v >>= I.check) = .ok v' ↔
      (∀ t ∈ ts, ¬Refused t) ∧ ∃ t z, ts.getLast? = some t ∧ leading t = some z ∧
        a.Within (a.narrowed z) ∧ v' = some (I.holding v (I.ofULong (UInt64.ofInt z))) := by
  obtain ⟨ts, t, rfl⟩ := List.eq_nil_or_concat ts |>.resolve_left hne
  simp only [List.concat_eq_append, Except.bind_eq_ok, I.foldlM_eq_ok t hv, List.forall_mem_append,
    List.forall_mem_singleton, List.getLast?_concat, Option.some.injEq, ← I.toInt_ofULong]
  constructor
  · rintro ⟨v₁, ⟨hts, n, ⟨hval, hread⟩, rfl⟩, hcheck⟩
    obtain ⟨hwithin, rfl⟩ := (I.check_holding hv).mp hcheck
    obtain ⟨z, hz, -, rfl⟩ := stoul_eq_ok.mp hread
    exact ⟨⟨hts, not_refused.mpr ⟨hval, _, hread⟩⟩, t, z, rfl, hz, hwithin, rfl⟩
  · rintro ⟨⟨hts, ht⟩, _, z, rfl, hz, hwithin, rfl⟩
    obtain ⟨hval, n, hread⟩ := not_refused.mp ht
    obtain ⟨z', hz', -, rfl⟩ := stoul_eq_ok.mp hread
    obtain rfl : z = z' := Option.some.inj (hz.symm.trans hz')
    exact ⟨_, ⟨hts, _, ⟨hval, hread⟩, rfl⟩, (I.check_holding hv).mpr ⟨hwithin, rfl⟩⟩

end Integral

/-! ### Exactly in bounds -/

/-- The texts are not accepted: one is refused, or what is kept of the last is out of the bounds. -/
theorem Argument.not_reads_iff (hne : ts ≠ []) : ¬a.Reads ts ↔
    (∃ t ∈ ts, Refused t) ∨
      ∃ t z, ts.getLast? = some t ∧ leading t = some z ∧ ¬a.Within (a.narrowed z) := by
  constructor
  · intro h
    by_cases hrefused : ∃ t ∈ ts, Refused t
    · exact .inl hrefused
    · have hall : ∀ t ∈ ts, ¬Refused t := fun t ht hr => hrefused ⟨t, ht, hr⟩
      obtain ⟨-, n, hn⟩ := not_refused.mp (hall _ (List.getLast_mem hne))
      obtain ⟨z, hz, -, -⟩ := stoul_eq_ok.mp hn
      have hlast := List.getLast?_eq_some_getLast hne
      exact .inr ⟨_, z, hlast, hz, fun hwithin => h ⟨hall, _, z, hlast, hz, hwithin⟩⟩
  · rintro (⟨t, ht, hr⟩ | ⟨t, z, hlast, hz, hout⟩) ⟨hall, t', z', hlast', hz', hwithin⟩
    · exact hall t ht hr
    · obtain rfl : t = t' := Option.some.inj (hlast.symm.trans hlast')
      obtain rfl : z = z' := Option.some.inj (hz.symm.trans hz')
      exact hout hwithin

variable [Zero F] {stof : List Byte → Except ConversionError F} {arguments : List (Argument F)}
  {argv : List (List Byte)} {c : Category F}

theorem apply_size (ht : a.type = .size) (text : List Byte) :
    (recordCell a.name).Inside (a.apply stof text) ((Integral.size ht).own text) := by
  unfold Argument.apply
  simp only [ht]
  exact .after fun n => Argument.commit_inside _

theorem apply_int (ht : a.type = .integer) (text : List Byte) :
    (recordCell a.name).Inside (a.apply stof text) ((Integral.int ht).own text) := by
  unfold Argument.apply
  simp only [ht]
  exact .after fun n => Argument.commit_inside _

variable [LT F] [DecidableLT F]

theorem validate_size (ht : a.type = .size) :
    (recordCell a.name).Inside a.validate (Integral.size ht).check := by
  unfold Argument.validate
  simp only [ht]
  exact Argument.get_inside _

theorem validate_int (ht : a.type = .integer) :
    (recordCell a.name).Inside a.validate (Integral.int ht).check := by
  unfold Argument.validate
  simp only [ht]
  exact Argument.get_inside _

/-- The record holds the number that the last text is. -/
def HoldsLast (ts : List (List Byte)) (value : RecordValue F) : Prop :=
  ∃ t z, ts.getLast? = some t ∧ Numeral.whole t = some z ∧ value.number = some z

theorem Integral.delivers_iff {α : Type} [LT α] [DecidableLT α] (I : Integral a α)
    (h : Alone arguments a) (args : Iteration arguments)
    (hown : ∀ text, (recordCell a.name).Inside (a.apply stof text) (I.own text))
    (hcheck : (recordCell a.name).Inside a.validate I.check)
    (hrest : ∃ d, parseArgv stof (withoutOptions a.name argv) c (withoutArgument a.name arguments)
      (args.without a.name) = .ok d)
    (hgiven : texts a.name argv ≠ []) (hfits : I.Fits (c.find a.name)) :
    Delivers (parseArgv stof argv c arguments args) a.name (a.Numerals (texts a.name argv))
      (HoldsLast (texts a.name argv)) ↔
      a.Numerals (texts a.name argv) ∨ ¬a.Reads (texts a.name argv) := by
  rw [Argparse.delivers_iff h args hown hcheck hrest]
  simp only [I.own_eq_ok hgiven hfits]
  constructor
  · rintro ⟨-, hrejects⟩
    by_cases hnum : a.Numerals (texts a.name argv)
    · exact .inl hnum
    · right
      rintro ⟨hall, t, z, hlast, hz, hwithin⟩
      exact hrejects hnum ⟨_, hall, t, z, hlast, hz, hwithin, rfl⟩
  · intro hor
    constructor
    · intro hnum
      obtain ⟨hall, t, z, hlast, hz, hwithin⟩ := hnum.reads hgiven
      obtain ⟨z', hwhole, hwithin'⟩ := hnum t (List.mem_of_getLast? hlast)
      obtain rfl : z' = z := Option.some.inj ((leading_of_whole hwhole).symm.trans hz)
      have hnumber := I.number_store (I.ofULong (UInt64.ofInt z'))
      rw [I.toInt_ofULong, (Argument.narrowed_of_within hwithin').2] at hnumber
      exact ⟨_, ⟨hall, t, z', hlast, hz, hwithin, rfl⟩, t, z', hlast, hwhole, hnumber⟩
    · rintro hnum ⟨v, hall, t, z, hlast, hz, hwithin, -⟩
      exact hor.elim hnum fun hreads => hreads ⟨hall, t, z, hlast, hz, hwithin⟩

/-- An option of an integer is accepted exactly in its bounds if and only if every text is a numeral
    within the bounds, or one of them is refused, or what the type keeps of the number that the last one
    begins with is out of the bounds. -/
theorem integer_option_iff (h : Alone arguments a) (htype : a.type = .size ∨ a.type = .integer)
    (args : Iteration arguments)
    (hrest : ∃ d, parseArgv stof (withoutOptions a.name argv) c (withoutArgument a.name arguments)
      (args.without a.name) = .ok d)
    (hgiven : texts a.name argv ≠ [])
    (hrecord : ∀ r, c.find a.name = some r → r.typeId = ⟨a.secret, a.kind⟩) :
    Delivers (parseArgv stof argv c arguments args) a.name (a.Numerals (texts a.name argv))
      (HoldsLast (texts a.name argv)) ↔
      a.Numerals (texts a.name argv) ∨ (∃ t ∈ texts a.name argv, Refused t) ∨
        ∃ t z, (texts a.name argv).getLast? = some t ∧ leading t = some z ∧
          ¬a.Within (a.narrowed z) := by
  rw [← Argument.not_reads_iff hgiven]
  obtain ht | ht := htype
  · refine (Integral.size ht).delivers_iff h args (apply_size ht) (validate_size ht) hrest hgiven ?_
    intro r hr
    rw [hrecord r hr, Argument.kind, ht]
    rfl
  · refine (Integral.int ht).delivers_iff h args (apply_int ht) (validate_int ht) hrest hgiven ?_
    intro r hr
    rw [hrecord r hr, Argument.kind, ht]
    rfl

/-- "verbose", and "int" with the bounds 0 and 100. -/
def exampleTable : List (Argument Float32) :=
  [.ofBool [118, 101, 114, 98, 111, 115, 101] false [] false, .ofInt [105, 110, 116] 0 0 100 [] false]

/-- "--int=7" after "--verbose=ok". -/
theorem integer_option_seven :
    let argv : List (List Byte) := [[116],
      [45, 45, 118, 101, 114, 98, 111, 115, 101, 61, 111, 107], [45, 45, 105, 110, 116, 61, 55]]
    let a : Argument Float32 := .ofInt [105, 110, 116] 0 0 100 [] false
    Delivers (parseArgv (fun _ => .error .invalidArgument) argv {} exampleTable ⟨exampleTable, .refl _⟩)
      a.name (a.Numerals (texts a.name argv)) (HoldsLast (texts a.name argv)) := by
  intro argv a
  have hother : hashString [118, 101, 114, 98, 111, 115, 101] ≠ hashString [105, 110, 116] := by decide
  have halone : Alone exampleTable a := by
    refine ⟨List.mem_cons_of_mem _ List.mem_cons_self, fun b hb hhash => ?_⟩
    obtain rfl | hb := List.mem_cons.mp hb
    · exact absurd hhash hother
    · exact List.mem_singleton.mp hb
  refine (integer_option_iff halone (.inr rfl) _ ⟨_, rfl⟩ (by decide)
    fun r hr => by cases hr).mpr (.inl ?_)
  intro t ht
  obtain rfl := List.mem_singleton.mp ht
  exact ⟨7, rfl, by decide, by decide⟩

/-- "--int=12abc" and "--int=4294967297" are accepted with the bounds 0 and 100. -/
theorem integer_option_not_exact :
    let a : Argument Float32 := .ofInt [105, 110, 116] 0 0 100 [] false
    ∀ text ∈ [[49, 50, 97, 98, 99], [52, 50, 57, 52, 57, 54, 55, 50, 57, 55]],
      let argv := [[116], optionString a.name text]
      ¬Delivers (parseArgv (fun _ => .error .invalidArgument) argv {} [a] ⟨[a], .refl _⟩)
        a.name (a.Numerals (texts a.name argv)) (HoldsLast (texts a.name argv)) := by
  intro a text htext argv hdelivers
  obtain rfl | htext := List.mem_cons.mp htext
  · have hnot : ¬a.Numerals (texts a.name argv) := by
      intro hnum
      obtain ⟨z, hz, -⟩ := hnum _ List.mem_cons_self
      cases hz
    exact Except.exists_error_iff.mp (hdelivers.rejects hnot) ⟨_, rfl⟩
  · obtain rfl := List.mem_singleton.mp htext
    have hnot : ¬a.Numerals (texts a.name argv) := by
      intro hnum
      obtain ⟨z, hz, -, hle⟩ := hnum _ List.mem_cons_self
      obtain rfl : 4294967297 = z := Option.some.inj hz
      revert hle
      decide
    exact Except.exists_error_iff.mp (hdelivers.rejects hnot) ⟨_, rfl⟩

end Jinx.Argparse
