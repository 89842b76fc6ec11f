import Jinx.Lib.Runs
import Mathlib.Logic.Function.Basic

/-! `VariantRecursive` and `VariantLookupTable` of `variant.hpp`.

    Both are a piece of memory and the index of the alternative that lives in it. One finds the
    alternative by going through the list of types, the other one in a table. The two classes have the
    same constructors and operators, word for word, but for that (`Dispatch`) and for `==`.

    What a type can do is a parameter (`CppTypes`), also what the machine makes of memory in which no
    object of the type lives. A visitor can write to the value it is called with. -/

namespace Jinx

/-- What the alternatives are made of. `read` is `*reinterpret_cast<T*>(_memory)`; `construct` and
    `destroy` are what a constructor and the destructor do to the memory. A copy constructor may throw,
    which is `none`; a move leaves something behind. -/
structure CppTypes where
  Name : Type
  Value : Name → Type
  Memory : Type
  /-- `_memory{}` -/
  zero : Memory
  read : (t : Name) → Memory → Value t
  construct : (t : Name) → Value t → Memory → Memory
  destroy : Name → Memory → Memory
  copy : (t : Name) → Value t → Option (Value t)
  move : (t : Name) → Value t → Value t × Value t
  equal : (t : Name) → Value t → Value t → Bool

/-- The members of `VariantBase`. -/
structure VariantBase (C : CppTypes) where
  memory : C.Memory := C.zero
  type : Int := -1

namespace VariantBase

variable {C : CppTypes}

def empty (v : VariantBase C) : Bool := v.type = -1

end VariantBase

/-- A visitor is called with a reference to the value. -/
abbrev Visitor (C : CppTypes) (β : Type) := (t : C.Name) → C.Value t → C.Value t × β

section

variable {C : CppTypes} [DecidableEq C.Name] {β : Type}

/-- `meta::index_of`, from `index` on. -/
def indexOf (t : C.Name) (index : Int) : List C.Name → Int
  | [] => -1
  | t' :: ts => if t = t' then index else indexOf t (index + 1) ts

/-- The ways to the alternative that is held. A copy says whether it was completed. -/
structure Dispatch (C : CppTypes) (β : Type) where
  free : Int → C.Memory → C.Memory
  constructCopy : (this other : VariantBase C) → VariantBase C × Bool
  constructMove : (this other : VariantBase C) → VariantBase C × VariantBase C
  equal : (this other : VariantBase C) → Bool
  call : Visitor C β → VariantBase C → VariantBase C × List β

/-! ### `VariantRecursive` -/

namespace VariantRecursive

variable (types : List C.Name)

/-- `_free`. -/
def free : List C.Name → Int → C.Memory → C.Memory
  | [], _, memory => memory
  | t :: ts, vtype, memory =>
    if indexOf t 0 types = vtype then C.destroy t memory else free ts vtype memory

/-- `_construct_copy`, which notes the type after the copy. -/
def constructCopy : List C.Name → (this other : VariantBase C) → VariantBase C × Bool
  | [], this, _ => (this, true)
  | t :: ts, this, other =>
    if indexOf t 0 types = other.type then
      match C.copy t (C.read t other.memory) with
      | some v => (⟨C.construct t v this.memory, other.type⟩, true)
      | none => (this, false)
    else constructCopy ts this other

/-- `_construct_move`. -/
def constructMove : List C.Name → (this other : VariantBase C) → VariantBase C × VariantBase C
  | [], this, other => (this, other)
  | t :: ts, this, other =>
    if indexOf t 0 types = other.type then
      let (v, left) := C.move t (C.read t other.memory)
      (⟨C.construct t v this.memory, other.type⟩, ⟨C.construct t left other.memory, -1⟩)
    else constructMove ts this other

/-- `_compare`, which looks at the type of the other one only. -/
def compare : List C.Name → (this other : VariantBase C) → Bool
  | [], _, _ => false
  | t :: ts, this, other =>
    if indexOf t 0 types = other.type then C.equal t (C.read t this.memory) (C.read t other.memory)
    else compare ts this other

/-- `_call`, which goes on after it has found the type. -/
def call (fun_ : Visitor C β) : List C.Name → Int → C.Memory → C.Memory × List β
  | [], _, memory => (memory, [])
  | t :: ts, vtype, memory =>
    if indexOf t 0 types = vtype then
      let (v, out) := fun_ t (C.read t memory)
      let (memory, outs) := call fun_ ts vtype (C.construct t v memory)
      (memory, out :: outs)
    else call fun_ ts vtype memory

/-- `operator ==`: `and` binds more tightly than `or`. -/
def equal (this other : VariantBase C) : Bool :=
  (this.type = other.type && this.type = -1) || compare types types this other

def dispatch : Dispatch C β where
  free := free types types
  constructCopy := constructCopy types types
  constructMove := constructMove types types
  equal := equal types
  call fun_ this :=
    let (memory, outs) := call types fun_ types this.type this.memory
    (⟨memory, this.type⟩, outs)

end VariantRecursive

/-! ### `VariantLookupTable` -/

namespace VariantLookupTable

variable (types : List C.Name)

/-- `__lookup_table_apply`: the type at an index; outside of the table there is nothing to apply. -/
def table (type : Int) : Option C.Name := if type < 0 then none else types[type.toNat]?

def free (vtype : Int) (memory : C.Memory) : C.Memory :=
  match table types vtype with
  | none => memory
  | some t => C.destroy t memory

/-- The type is noted before the copy. -/
def constructCopy (this other : VariantBase C) : VariantBase C × Bool :=
  match table types other.type with
  | none => (this, true)
  | some t =>
    match C.copy t (C.read t other.memory) with
    | some v => (⟨C.construct t v this.memory, other.type⟩, true)
    | none => (⟨this.memory, other.type⟩, false)

def constructMove (this other : VariantBase C) : VariantBase C × VariantBase C :=
  match table types other.type with
  | none => (this, other)
  | some t =>
    let (v, left) := C.move t (C.read t other.memory)
    (⟨C.construct t v this.memory, other.type⟩, ⟨C.construct t left other.memory, -1⟩)

def compare (this other : VariantBase C) : Bool :=
  match table types this.type with
  | none => false
  | some t => C.equal t (C.read t this.memory) (C.read t other.memory)

def call (fun_ : Visitor C β) (this : VariantBase C) : VariantBase C × List β :=
  match table types this.type with
  | none => (this, [])
  | some t =>
    let (v, out) := fun_ t (C.read t this.memory)
    (⟨C.construct t v this.memory, this.type⟩, [out])

/-- `operator ==`. -/
def equal (this other : VariantBase C) : Bool :=
  this.type = other.type && (this.type = -1 || compare types this other)

def dispatch : Dispatch C β where
  free := free types
  constructCopy := constructCopy types
  constructMove := constructMove types
  equal := equal types
  call := call types

end VariantLookupTable

/-! ### The two classes -/

namespace Dispatch

variable (D : Dispatch C β)

def reset (this : VariantBase C) : VariantBase C :=
  if this.type ≠ -1 then ⟨D.free this.type this.memory, -1⟩ else this

/-- `emplace<T>`; arguments that no object can be made of are `none`, the constructor throws. -/
def emplace (types : List C.Name) (this : VariantBase C) (t : C.Name) (args : Option (C.Value t)) :
    VariantBase C :=
  let this := D.reset this
  ⟨args.elim this.memory fun v => C.construct t v this.memory, indexOf t 0 types⟩

/-- `operator()`. -/
def visit (this : VariantBase C) (fun_ : Visitor C β) : VariantBase C × Bool × List β :=
  if this.empty then (this, false, [])
  else
    let (this, outs) := D.call fun_ this
    (this, true, outs)

end Dispatch

/-- `as_pointer<T>`: null, or what is found there. -/
def asPointer (types : List C.Name) (this : VariantBase C) (t : C.Name) : Option (C.Value t) :=
  if indexOf t 0 types ≠ this.type then none else some (C.read t this.memory)

end

/-! ### Programs -/

/-- A variable that is a variant. -/
abbrev VarId := Nat

/-- What a program does with its variants. -/
inductive VariantOp (C : CppTypes) (β : Type) where
  | default (i : VarId)
  | value (i : VarId) (t : C.Name) (args : Option (C.Value t))
  | copy (i other : VarId)
  | move (i other : VarId)
  | emplace (i : VarId) (t : C.Name) (args : Option (C.Value t))
  | copyAssign (i other : VarId)
  | moveAssign (i other : VarId)
  | reset (i : VarId)
  | visit (i : VarId) (fun_ : Visitor C β)
  | asPointer (i : VarId) (t : C.Name)
  | equal (i other : VarId)
  | notEqual (i other : VarId)
  | destroy (i : VarId)

/-- What it gets for an answer. -/
inductive VariantResult (C : CppTypes) (β : Type) where
  | done
  | thrown
  | visited (called : Bool) (outs : List β)
  | pointer (t : C.Name) (target : Option (C.Value t))
  | bool (b : Bool)

/-- The variants that there are, and the answers so far, the last one first. -/
structure VariantProgram (C : CppTypes) (β : Type) where
  vars : VarId → Option (VariantBase C) := fun _ => none
  results : List (VariantResult C β) := []

namespace VariantProgram

variable {C : CppTypes} [DecidableEq C.Name] {β : Type}

def set (s : VariantProgram C β) (i : VarId) (v : Option (VariantBase C)) : VariantProgram C β :=
  { s with vars := Function.update s.vars i v }

def answer (s : VariantProgram C β) (r : VariantResult C β) : VariantProgram C β :=
  { s with results := r :: s.results }

/-- The answer of an operation that copies. -/
def completed : Bool → VariantResult C β
  | true => .done
  | false => .thrown

/-- One operation with either class. A constructor needs a variable that is not in use, the others need
    one that is; an object whose constructor throws does not come to be. -/
def step (D : Dispatch C β) (types : List C.Name) (s : VariantProgram C β) :
    VariantOp C β → Option (VariantProgram C β)
  | .default i => if s.vars i = none then some ((s.set i (some {})).answer .done) else none
  | .value i t args =>
    if s.vars i = none ∧ t ∈ types then
      match args with
      | some v => some ((s.set i (some (D.emplace types {} t (some v)))).answer .done)
      | none => some (s.answer .thrown)
    else none
  | .copy i other =>
    if s.vars i = none then
      (s.vars other).map fun b =>
        if b.empty then (s.set i (some {})).answer .done
        else
          match D.constructCopy {} b with
          | (a, true) => (s.set i (some a)).answer .done
          | (_, false) => s.answer .thrown
    else none
  | .move i other =>
    if s.vars i = none then
      (s.vars other).map fun b =>
        if b.empty then (s.set i (some {})).answer .done
        else
          let (a, b) := D.constructMove {} b
          ((s.set i (some a)).set other (some b)).answer .done
    else none
  | .emplace i t args =>
    if t ∈ types then
      (s.vars i).map fun a =>
        (s.set i (some (D.emplace types a t args))).answer (completed args.isSome)
    else none
  | .copyAssign i other =>
    (s.vars i).bind fun a =>
      let s := s.set i (some (D.reset a))
      (s.vars other).map fun b =>
        if b.empty then s.answer .done
        else
          let (a, ok) := D.constructCopy (D.reset a) b
          (s.set i (some a)).answer (completed ok)
  | .moveAssign i other =>
    (s.vars i).bind fun a =>
      let s := s.set i (some (D.reset a))
      (s.vars other).map fun b =>
        if b.empty then s.answer .done
        else
          let (a, b) := D.constructMove (D.reset a) b
          ((s.set i (some a)).set other (some b)).answer .done
  | .reset i => (s.vars i).map fun a => (s.set i (some (D.reset a))).answer .done
  | .visit i fun_ =>
    (s.vars i).map fun a =>
      let (a, called, outs) := D.visit a fun_
      (s.set i (some a)).answer (.visited called outs)
  | .asPointer i t => (s.vars i).map fun a => s.answer (.pointer t (Jinx.asPointer types a t))
  | .equal i other =>
    (s.vars i).bind fun a => (s.vars other).map fun b => s.answer (.bool (D.equal a b))
  | .notEqual i other =>
    (s.vars i).bind fun a => (s.vars other).map fun b => s.answer (.bool !(D.equal a b))
  | .destroy i => (s.vars i).map fun _ => (s.set i none).answer .done

/-- Runs of a program. -/
abbrev exec (D : Dispatch C β) (types : List C.Name) :
    VariantProgram C β → List (VariantOp C β) → Option (VariantProgram C β) :=
  Runs.exec (step D types)

end VariantProgram

end Jinx
