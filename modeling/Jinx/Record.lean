import Jinx.Http.WebRoute
import Mathlib.Data.List.Basic
import Mathlib.Logic.Function.Basic

/-! `record::RecordCategory`: records stored under the hash of their name.

    A record type is the address of its `type_id`; what `commit` and `visit` do with a value is left to
    the record type. No record is removed before the category is destroyed, so a pointer to one is
    named by the key that it is stored under. -/

namespace Jinx.Record
open Jinx Jinx.Http

variable {τ V : Type*}

/-- `RecordAbstract`. -/
structure RecordAbstract (τ V : Type*) where
  name : List Byte
  description : List Byte := []
  typeId : τ
  value : V
  deriving DecidableEq, Repr

/-- What never changes about a record. -/
def RecordAbstract.ident (r : RecordAbstract τ V) : List Byte × τ := (r.name, r.typeId)

/-- The `std::invalid_argument` that is thrown, with the name in its text. -/
inductive InvalidArgument where
  | typeConflict (name : List Byte)
  | doesNotExist (name : List Byte)
  deriving DecidableEq, Repr

/-- The text: what stands before the name and what stands behind it. -/
def InvalidArgument.what : InvalidArgument → String × List Byte × String
  | typeConflict name => ("record \"", name, "\" type conflict")
  | doesNotExist name => ("record \"", name, "\" does not exists")

/-- `RecordCategory`: the map `_records`. -/
structure RecordCategory (τ V : Type*) where
  records : UInt64 → Option (RecordAbstract τ V) := fun _ => none

namespace RecordCategory

/-- `_records.find(hash_string(name))`. -/
def find (c : RecordCategory τ V) (name : List Byte) : Option (RecordAbstract τ V) :=
  c.records (hashString name)

/-- `_records.emplace`, and what is written through a pointer to the record under a key. -/
def emplace (c : RecordCategory τ V) (hash : UInt64) (record : RecordAbstract τ V) :
    RecordCategory τ V :=
  { c with records := Function.update c.records hash (some record) }

@[simp] theorem find_emplace (c : RecordCategory τ V) (hash : UInt64) (r : RecordAbstract τ V)
    (n : List Byte) :
    (c.emplace hash r).find n = if hashString n = hash then some r else c.find n := by
  simp only [find, emplace, Function.update_apply]

@[simp] theorem emplace_emplace (c : RecordCategory τ V) (hash : UInt64) (r r' : RecordAbstract τ V) :
    (c.emplace hash r).emplace hash r' = c.emplace hash r' := by
  simp only [emplace, Function.update_idem]

variable [DecidableEq τ]

def insert (c : RecordCategory τ V) (record : RecordAbstract τ V) :
    Except InvalidArgument (RecordCategory τ V × Bool) :=
  match c.find record.name with
  | some old =>
    if record.typeId ≠ old.typeId then .error (.typeConflict record.name) else .ok (c, false)
  | none => .ok (c.emplace (hashString record.name) record, true)

/-- `get<R>`: `typeId` is `R::type_id()`, and `value` what the other arguments construct. -/
def get (c : RecordCategory τ V) (name : List Byte) (typeId : τ) (value : V) :
    Except InvalidArgument (RecordCategory τ V × RecordAbstract τ V) :=
  match c.find name with
  | some old => if typeId ≠ old.typeId then .error (.typeConflict name) else .ok (c, old)
  | none =>
    let ptr := { name, typeId, value }
    .ok (c.emplace (hashString name) ptr, ptr)

def check (c : RecordCategory τ V) (name : List Byte) (typeId : τ) :
    Except InvalidArgument (RecordAbstract τ V) :=
  match c.find name with
  | some old => if typeId ≠ old.typeId then .error (.typeConflict name) else .ok old
  | none => .error (.doesNotExist name)

/-- `exists`. -/
def existsRecord (c : RecordCategory τ V) (name : List Byte) : Bool := (c.find name).isSome

def create (c : RecordCategory τ V) (name desc : List Byte) (typeId : τ) (value : V) :
    Except InvalidArgument (RecordCategory τ V × RecordAbstract τ V) := do
  let (c, record) ← c.get name typeId value
  let record := { record with description := desc }
  return (c.emplace (hashString name) record, record)

/-- `visit`: `visitor` is what `record->visit(visitor)` comes to. -/
def visit (c : RecordCategory τ V) (name : List Byte) (visitor : RecordAbstract τ V → Bool) : Bool :=
  match c.find name with
  | none => false
  | some record => visitor record

/-- The owner of the pointer that `check` returns calls `commit` on the record. -/
def commit (c : RecordCategory τ V) (name : List Byte) (typeId : τ) (f : V → V) :
    Except InvalidArgument (RecordCategory τ V) := do
  let record ← c.check name typeId
  return c.emplace (hashString name) { record with value := f record.value }

end RecordCategory

/-- A call on a category. -/
inductive Op (τ V : Type*) where
  | insert (record : RecordAbstract τ V)
  | get (name : List Byte) (typeId : τ) (value : V)
  | check (name : List Byte) (typeId : τ)
  | existsRecord (name : List Byte)
  | create (name desc : List Byte) (typeId : τ) (value : V)
  | visit (name : List Byte) (visitor : RecordAbstract τ V → Bool)
  | commit (name : List Byte) (typeId : τ) (f : V → V)

namespace Op

def name : Op τ V → List Byte
  | insert record => record.name
  | get name _ _ | check name _ | existsRecord name | create name _ _ _ | visit name _
  | commit name _ _ => name

/-- The record type that the call asks for. -/
def typeId : Op τ V → Option τ
  | insert record => some record.typeId
  | get _ typeId _ | check _ typeId | create _ _ typeId _ | commit _ typeId _ => some typeId
  | existsRecord _ | visit _ _ => none

/-- The record that the call stores when there is none under its key. -/
def stored : Op τ V → Option (RecordAbstract τ V)
  | insert record => some record
  | get name typeId value => some { name, typeId, value }
  | create name description typeId value => some { name, description, typeId, value }
  | check _ _ | existsRecord _ | visit _ _ | commit _ _ _ => none

theorem stored_name {o : Op τ V} {r : RecordAbstract τ V} (h : o.stored = some r) :
    r.name = o.name := by
  cases o <;> simp only [stored, Option.some.injEq, reduceCtorEq] at h <;> subst h <;> rfl

end Op

/-- The first record that the calls store or would store under the hash of `n`. -/
def firstStored (ops : List (Op τ V)) (n : List Byte) : Option (RecordAbstract τ V) :=
  (ops.filterMap Op.stored).find? fun r => hashString r.name = hashString n

theorem firstStored_cons (o : Op τ V) (ops : List (Op τ V)) (n : List Byte) :
    firstStored (o :: ops) n =
      (if hashString o.name = hashString n then o.stored else none).or (firstStored ops n) := by
  cases ho : o.stored with
  | none => simp [firstStored, ho]
  | some r =>
    simp only [firstStored, List.filterMap_cons, ho, List.find?_cons, Op.stored_name ho]
    split <;> simp_all

namespace RecordCategory

/-- What a call returns. -/
inductive Answer (τ V : Type*) where
  | done
  | bool (b : Bool)
  | record (r : RecordAbstract τ V)

variable [DecidableEq τ]

/-- One call. An exception is thrown before anything is written. -/
def perform (c : RecordCategory τ V) :
    Op τ V → Except InvalidArgument (RecordCategory τ V × Answer τ V)
  | .insert record => (c.insert record).map fun p => (p.1, .bool p.2)
  | .get name typeId value => (c.get name typeId value).map fun p => (p.1, .record p.2)
  | .check name typeId => (c.check name typeId).map fun r => (c, .record r)
  | .existsRecord name => .ok (c, .bool (c.existsRecord name))
  | .create name desc typeId value =>
    (c.create name desc typeId value).map fun p => (p.1, .record p.2)
  | .visit name visitor => .ok (c, .bool (c.visit name visitor))
  | .commit name typeId f => (c.commit name typeId f).map fun c => (c, .done)

/-- The category after the call. -/
def next (c : RecordCategory τ V) (o : Op τ V) : RecordCategory τ V :=
  match c.perform o with
  | .ok (c, _) => c
  | .error _ => c

/-- The category after the calls, from an empty one. -/
def run (ops : List (Op τ V)) : RecordCategory τ V := ops.foldl next {}

/-- `get` and `check` of `n` with the type of `r` return `r`, and `visit` visits it. -/
def Reaches (c : RecordCategory τ V) (n : List Byte) (r : RecordAbstract τ V) : Prop :=
  c.check n r.typeId = .ok r ∧ (∀ value, c.get n r.typeId value = .ok (c, r)) ∧
    ∀ visitor, c.visit n visitor = visitor r

/-- Where nothing is stored under the key, `insert`, `get` and `create` store their record. -/
theorem next_of_none {c : RecordCategory τ V} {o : Op τ V} (h : c.find o.name = none) :
    c.next o = o.stored.elim c (c.emplace (hashString o.name)) := by
  cases o with
  | insert record =>
    simp only [Op.name] at h
    simp [next, perform, insert, h, Op.stored, Op.name, Except.map]
  | get name typeId value =>
    simp only [Op.name] at h
    simp [next, perform, get, h, Op.stored, Op.name, Except.map]
  | check name typeId =>
    simp only [Op.name] at h
    simp [next, perform, check, h, Op.stored, Except.map]
  | existsRecord name => rfl
  | create name desc typeId value =>
    simp only [Op.name] at h
    simp [next, perform, create, get, h, Op.stored, Op.name, Except.map, bind, Except.bind, pure,
      Except.pure]
  | visit name visitor => rfl
  | commit name typeId f =>
    simp only [Op.name] at h
    simp [next, perform, commit, check, h, Op.stored, Except.map, bind, Except.bind]

/-- A record that is there keeps its name and its type. -/
theorem next_of_some {c : RecordCategory τ V} {o : Op τ V} {old : RecordAbstract τ V}
    (h : c.find o.name = some old) :
    c.next o = c ∨ ∃ r, c.next o = c.emplace (hashString o.name) r ∧ r.ident = old.ident := by
  cases o with
  | insert record =>
    simp only [Op.name] at h
    left
    by_cases ht : record.typeId = old.typeId <;>
      simp [next, perform, insert, h, ht, Except.map]
  | get name typeId value =>
    simp only [Op.name] at h
    left
    by_cases ht : typeId = old.typeId <;> simp [next, perform, get, h, ht, Except.map]
  | check name typeId =>
    simp only [Op.name] at h
    left
    by_cases ht : typeId = old.typeId <;> simp [next, perform, check, h, ht, Except.map]
  | existsRecord name => exact .inl rfl
  | create name desc typeId value =>
    simp only [Op.name] at h
    by_cases ht : typeId = old.typeId
    · exact .inr ⟨{ old with description := desc }, by
        simp [next, perform, create, get, h, ht, Except.map, bind, Except.bind, pure, Except.pure,
          Op.name], rfl⟩
    · left
      simp [next, perform, create, get, h, ht, Except.map, bind, Except.bind]
  | visit name visitor => exact .inl rfl
  | commit name typeId f =>
    simp only [Op.name] at h
    by_cases ht : typeId = old.typeId
    · exact .inr ⟨{ old with value := f old.value }, by
        simp [next, perform, commit, check, h, ht, Except.map, bind, Except.bind, pure, Except.pure,
          Op.name], rfl⟩
    · left
      simp [next, perform, commit, check, h, ht, Except.map, bind, Except.bind]

/-- One call: a record that is there keeps its name and its type, a new one comes under the key of the
    call's name only, and nothing else moves. -/
theorem find_next (c : RecordCategory τ V) (o : Op τ V) (n : List Byte) :
    ((c.next o).find n).map RecordAbstract.ident =
      ((c.find n).or (if hashString o.name = hashString n then o.stored else none)).map
        RecordAbstract.ident := by
  cases h : c.find o.name with
  | none =>
    rw [next_of_none h]
    cases hs : o.stored with
    | none => simp
    | some r =>
      by_cases hn : hashString o.name = hashString n
      · have hnone : c.find n = none := by rw [find, ← hn]; exact h
        simp [hn, hnone]
      · simp [hn, Ne.symm hn]
  | some old =>
    by_cases hn : hashString o.name = hashString n
    · have hold : c.find n = some old := by rw [find, ← hn]; exact h
      obtain heq | ⟨r, heq, hr⟩ := next_of_some h <;> simp_all
    · obtain heq | ⟨r, heq, -⟩ := next_of_some h <;> simp [heq, hn, Ne.symm hn]

theorem find_foldl_next (ops : List (Op τ V)) (n : List Byte) : ∀ c : RecordCategory τ V,
    ((ops.foldl next c).find n).map RecordAbstract.ident =
      ((c.find n).or (firstStored ops n)).map RecordAbstract.ident := by
  induction ops with
  | nil => intro c; simp [firstStored]
  | cons o ops ih =>
    intro c
    have hstep := find_next c o n
    rw [List.foldl_cons, ih, firstStored_cons]
    simp only [Option.map_or] at hstep ⊢
    rw [hstep, Option.or_assoc]

/-- What is under a key has the name and the type of the record that was stored there first. -/
theorem find_run (ops : List (Op τ V)) (n : List Byte) :
    ((run ops).find n).map RecordAbstract.ident =
      (firstStored ops n).map RecordAbstract.ident :=
  find_foldl_next ops n {}

theorem reaches_of_find {c : RecordCategory τ V} {n : List Byte} {r : RecordAbstract τ V}
    (h : c.find n = some r) : c.Reaches n r := by
  refine ⟨?_, fun value => ?_, fun visitor => ?_⟩
  · simp [check, h]
  · simp [get, h]
  · simp [visit, h]

/-- A pointer that is returned is the one to the record under the key, or to a new record of that
    name. -/
theorem perform_record {c c' : RecordCategory τ V} {o : Op τ V} {r : RecordAbstract τ V}
    (h : c.perform o = .ok (c', .record r)) :
    r.name = o.name ∨ ∃ old, c.find o.name = some old ∧ r.ident = old.ident := by
  cases o with
  | insert record =>
    cases hi : c.insert record <;> simp [perform, hi, Except.map] at h
  | get name typeId value =>
    cases hf : c.find name with
    | none =>
      left
      simp only [perform, get, hf, Except.map, Except.ok.injEq, Prod.mk.injEq,
        Answer.record.injEq] at h
      rw [← h.2]; rfl
    | some old =>
      right
      refine ⟨old, hf, ?_⟩
      by_cases ht : typeId = old.typeId <;> simp [perform, get, hf, ht, Except.map] at h
      rw [h.2]
  | check name typeId =>
    cases hf : c.find name with
    | none => simp [perform, check, hf, Except.map] at h
    | some old =>
      right
      refine ⟨old, hf, ?_⟩
      by_cases ht : typeId = old.typeId <;> simp [perform, check, hf, ht, Except.map] at h
      rw [h.2]
  | existsRecord name => simp [perform] at h
  | create name desc typeId value =>
    cases hf : c.find name with
    | none =>
      left
      simp only [perform, create, get, hf, Except.map, bind, Except.bind, pure, Except.pure,
        Except.ok.injEq, Prod.mk.injEq, Answer.record.injEq] at h
      rw [← h.2]; rfl
    | some old =>
      right
      refine ⟨old, hf, ?_⟩
      by_cases ht : typeId = old.typeId <;>
        simp [perform, create, get, hf, ht, Except.map, bind, Except.bind, pure, Except.pure] at h
      rw [← h.2]; rfl
  | visit name visitor => simp [perform] at h
  | commit name typeId f =>
    cases hi : c.commit name typeId f <;> simp [perform, hi, Except.map] at h

/-- The exception for a conflict names the call, and there is a record of another type under its key. -/
theorem perform_conflict {c : RecordCategory τ V} {o : Op τ V} {m : List Byte}
    (h : c.perform o = .error (.typeConflict m)) :
    m = o.name ∧ ∃ old t, c.find o.name = some old ∧ o.typeId = some t ∧ t ≠ old.typeId := by
  cases o with
  | insert record =>
    cases hf : c.find record.name with
    | none => simp [perform, insert, hf, Except.map] at h
    | some old =>
      by_cases ht : record.typeId = old.typeId <;> simp [perform, insert, hf, ht, Except.map] at h
      exact ⟨h.symm, old, record.typeId, hf, rfl, ht⟩
  | get name typeId value =>
    cases hf : c.find name with
    | none => simp [perform, get, hf, Except.map] at h
    | some old =>
      by_cases ht : typeId = old.typeId <;> simp [perform, get, hf, ht, Except.map] at h
      exact ⟨h.symm, old, typeId, hf, rfl, ht⟩
  | check name typeId =>
    cases hf : c.find name with
    | none => simp [perform, check, hf, Except.map] at h
    | some old =>
      by_cases ht : typeId = old.typeId <;> simp [perform, check, hf, ht, Except.map] at h
      exact ⟨h.symm, old, typeId, hf, rfl, ht⟩
  | existsRecord name => cases h
  | create name desc typeId value =>
    cases hf : c.find name with
    | none =>
      simp [perform, create, get, hf, Except.map, bind, Except.bind, pure, Except.pure] at h
    | some old =>
      by_cases ht : typeId = old.typeId <;>
        simp [perform, create, get, hf, ht, Except.map, bind, Except.bind, pure, Except.pure] at h
      exact ⟨h.symm, old, typeId, hf, rfl, ht⟩
  | visit name visitor => cases h
  | commit name typeId f =>
    cases hf : c.find name with
    | none => simp [perform, commit, check, hf, Except.map, bind, Except.bind] at h
    | some old =>
      by_cases ht : typeId = old.typeId <;>
        simp [perform, commit, check, hf, ht, Except.map, bind, Except.bind, pure, Except.pure] at h
      exact ⟨h.symm, old, typeId, hf, rfl, ht⟩

theorem find_run_eq_none {ops : List (Op τ V)} {n : List Byte} :
    (run ops).find n = none ↔ firstStored ops n = none := by
  have h := find_run ops n
  cases hf : (run ops).find n <;> cases hs : firstStored ops n <;> simp_all

theorem find_run_eq_some {ops : List (Op τ V)} {n : List Byte} {r : RecordAbstract τ V}
    (h : (run ops).find n = some r) : ∃ r₀, firstStored ops n = some r₀ ∧ r.ident = r₀.ident := by
  have hrun := find_run ops n
  cases hs : firstStored ops n with
  | none => simp_all
  | some r₀ => exact ⟨r₀, rfl, by simp_all⟩

theorem hash_of_find_run {ops : List (Op τ V)} {n : List Byte} {r : RecordAbstract τ V}
    (h : (run ops).find n = some r) : hashString r.name = hashString n := by
  obtain ⟨r₀, hs, hident⟩ := find_run_eq_some h
  have hhash := List.find?_some hs
  simp only [RecordAbstract.ident, Prod.mk.injEq] at hident
  rw [hident.1]
  simpa using hhash

theorem existsRecord_run (ops : List (Op τ V)) (n : List Byte) :
    (run ops).existsRecord n = true ↔
      ∃ o ∈ ops, ∃ r, o.stored = some r ∧ hashString r.name = hashString n := by
  rw [existsRecord, Option.isSome_iff_ne_none, ne_eq, find_run_eq_none, firstStored,
    List.find?_eq_none]
  simp only [List.mem_filterMap, decide_eq_true_eq, not_forall, not_not, exists_prop]
  constructor
  · rintro ⟨r, ⟨o, ho, hr⟩, hn⟩
    exact ⟨o, ho, r, hr, hn⟩
  · rintro ⟨o, ho, r, hr, hn⟩
    exact ⟨r, ⟨o, ho, hr⟩, hn⟩

/-- A call on a name of another hash leaves what is found. -/
theorem find_next_of_ne {c : RecordCategory τ V} {o : Op τ V} {n : List Byte}
    (h : hashString o.name ≠ hashString n) : (c.next o).find n = c.find n := by
  cases hf : c.find o.name with
  | none =>
    rw [next_of_none hf]
    cases o.stored <;> simp [Ne.symm h]
  | some old =>
    obtain heq | ⟨r, heq, -⟩ := next_of_some hf <;> simp [heq, Ne.symm h]

end RecordCategory

open RecordCategory

variable [DecidableEq τ]

/-- What a category is, after any calls and for any name: a map keyed by the hash of the names. -/
structure KeyedByHash (ops : List (Op τ V)) (n : List Byte) : Prop where
  exists_iff : (run ops).existsRecord n = true ↔
    ∃ o ∈ ops, ∃ r, o.stored = some r ∧ hashString r.name = hashString n
  reaches : ∀ r₀, firstStored ops n = some r₀ → ∃ r, (run ops).Reaches n r ∧ r.ident = r₀.ident
  absent : firstStored ops n = none →
    (∀ typeId, (run ops).check n typeId = .error (.doesNotExist n)) ∧
    (∀ visitor, (run ops).visit n visitor = false) ∧
    ∀ typeId value, ∃ c, (run ops).get n typeId value = .ok (c, { name := n, typeId, value })
  frame : ∀ o : Op τ V, hashString o.name ≠ hashString n →
    ((run ops).next o).find n = (run ops).find n
  returned : ∀ (o : Op τ V) c r, (run ops).perform o = .ok (c, .record r) →
    hashString r.name = hashString o.name
  conflict : ∀ (o : Op τ V) m, (run ops).perform o = .error (.typeConflict m) → m = o.name ∧
    ∃ old t, (run ops).find o.name = some old ∧ hashString old.name = hashString o.name ∧
      o.typeId = some t ∧ t ≠ old.typeId
  /-- where no record of another name was stored under the hash, the name itself decides -/
  by_name : (∀ o ∈ ops, ∀ r, o.stored = some r → hashString r.name = hashString n → r.name = n) →
    ((run ops).existsRecord n = true ↔ ∃ o ∈ ops, ∃ r, o.stored = some r ∧ r.name = n) ∧
    ∀ r, (run ops).find n = some r → r.name = n

theorem category_keyed_by_hash (ops : List (Op τ V)) (n : List Byte) : KeyedByHash ops n where
  exists_iff := existsRecord_run ops n
  reaches := by
    intro r₀ hr₀
    cases hf : (run ops).find n with
    | none => simp [find_run_eq_none.mp hf] at hr₀
    | some r =>
      obtain ⟨r₁, hr₁, hident⟩ := find_run_eq_some hf
      obtain rfl : r₁ = r₀ := Option.some.inj (hr₁.symm.trans hr₀)
      exact ⟨r, reaches_of_find hf, hident⟩
  absent := by
    intro h
    have hf := find_run_eq_none.mpr h
    refine ⟨fun typeId => ?_, fun visitor => ?_, fun typeId value => ?_⟩
    · simp [check, hf]
    · simp [visit, hf]
    · simp [RecordCategory.get, hf]
  frame := fun o h => find_next_of_ne h
  returned := by
    intro o c r h
    obtain heq | ⟨old, hf, hident⟩ := perform_record h
    · rw [heq]
    · rw [← hash_of_find_run hf, (Prod.mk.inj hident).1]
  conflict := by
    intro o m h
    obtain ⟨hm, old, t, hf, ht, hne⟩ := perform_conflict h
    exact ⟨hm, old, t, hf, hash_of_find_run hf, ht, hne⟩
  by_name := by
    intro hone
    refine ⟨?_, fun r hf => ?_⟩
    · rw [existsRecord_run]
      constructor
      · rintro ⟨o, ho, r, hr, hn⟩
        exact ⟨o, ho, r, hr, hone o ho r hr hn⟩
      · rintro ⟨o, ho, r, hr, rfl⟩
        exact ⟨o, ho, r, hr, rfl⟩
    · obtain ⟨r₀, hr₀, hident⟩ := find_run_eq_some hf
      obtain ⟨o, ho, hr⟩ := List.mem_filterMap.mp (List.mem_of_find?_eq_some hr₀)
      rw [(Prod.mk.inj hident).1]
      exact hone o ho r₀ hr (by simpa using List.find?_some hr₀)

/-- `"aB"` and `"b!"` have one hash. After a record of the name `"aB"` was created the other name exists,
    `get` of it returns the record named `"aB"`, `create` of it changes the description of that record,
    and asked for with another type it throws a conflict. -/
theorem not_keyed_by_name :
    let aB : List Byte := [97, 66]
    let b : List Byte := [98, 33]
    let c : RecordCategory Nat Nat := run [.create aB [1] 0 7]
    c.existsRecord b = true ∧
      (∃ c' r, c.get b 0 8 = .ok (c', r) ∧ r.name = aB) ∧
      ((c.next (.create b [2] 0 8)).find aB).map RecordAbstract.description = some [2] ∧
      (c.get b 1 8).map Prod.snd = .error (.typeConflict b) := by
  refine ⟨by decide, ⟨_, _, rfl, rfl⟩, by decide, by decide⟩

end Jinx.Record
