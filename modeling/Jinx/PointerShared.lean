import Jinx.Lib.Count
import Jinx.Lib.Runs

/-! `pointer::PointerShared`: handles that count in the `_refc` of their objects.

    Assignments, `reset` and the destructor drop the old reference first (`unref`). That may run a hook
    of the object: its release, when the last reference goes, or the check that some types make when one
    reference is left. A hook is any code: between the start of an operation and the return of its hook
    there are any other operations, and the handle need not be what it was. -/

namespace Jinx

open Count Runs

/-- A handle, by its `_ptr`. While the check of its object runs, a handle points to it still, though
    the reference is dropped already: it is stale, which nothing in the code says. -/
inductive Pointer (O : Type*) where
  | null
  | owner (o : O)
  | stale (o : O)
  deriving DecidableEq

/-- The operations that begin with `unref`. -/
inductive Assignment (H O : Type*) where
  /-- `h = other` -/
  | copy (h other : H)
  /-- `h = std::move(other)` -/
  | move (h other : H)
  | reset (h : H) (ptr : Option O)
  /-- `~PointerShared` -/
  | destroy (h : H)
  deriving DecidableEq

inductive PointerOp (H O : Type*) where
  /-- `new T`, with a `_refc` of 1 -/
  | create (o : O)
  /-- `PointerShared()` and `PointerShared(T*)` -/
  | construct (h : H) (ptr : Option O)
  | copyConstruct (h other : H)
  | moveConstruct (h other : H)
  | sharedFromThis (h : H) (o : O)
  | release (h : H)
  | assign (a : Assignment H O)
  /-- the innermost hook returns -/
  | hookReturn
  deriving DecidableEq

inductive PointerFault where
  /-- `error::fatal("shared pointer double free")` -/
  | doubleFree
  /-- `error::fatal("reference after free")` -/
  | referenceAfterFree
  /-- a handle is used that a hook has destroyed -/
  | dangling
  deriving DecidableEq, Repr

structure Shared (H O : Type*) where
  /-- the handles that are alive -/
  handle : H → Option (Pointer O) := fun _ => none
  refc : O → Int := fun _ => 0
  created : O → Bool := fun _ => false
  /-- references that were given up by `release`, or that came with a new object, and that no handle
      has adopted -/
  given : O → Nat := fun _ => 0
  /-- the objects whose release hook ran -/
  released : List O := []
  /-- the operations whose hooks run, the innermost first -/
  stack : List (Assignment H O) := []
  fault : Option PointerFault := none

variable {H O : Type*}

namespace Pointer

/-- `_ptr`. -/
def ptr : Pointer O → Option O
  | .null => none
  | .owner o | .stale o => some o

/-- The object whose reference the handle owns. -/
def owns : Pointer O → Option O
  | .owner o => some o
  | .null | .stale _ => none

/-- The object that it points to without a reference. -/
def lacks : Pointer O → Option O
  | .stale o => some o
  | .null | .owner _ => none

/-- A handle that was given this pointer. -/
def of : Option O → Pointer O
  | none => .null
  | some o => .owner o

end Pointer

namespace Assignment

def target : Assignment H O → H
  | .copy h _ | .move h _ | .reset h _ | .destroy h => h

def source : Assignment H O → Option H
  | .copy _ other | .move _ other => some other
  | .reset .. | .destroy _ => none

/-- A handle is assigned to itself. -/
def IsSelf (a : Assignment H O) : Prop := a.source = some a.target

instance [DecidableEq H] (a : Assignment H O) : Decidable a.IsSelf :=
  inferInstanceAs (Decidable (a.source = some a.target))

end Assignment

/-- How `unref` ends: at once, with a hook that runs now, or in `error::fatal`. -/
inductive Unref where
  | done
  | hook
  | doubleFree
  deriving DecidableEq

namespace Shared

section Code

variable [DecidableEq H] [DecidableEq O] (checks : Bool) (s : Shared H O)

def setHandle (h : H) (p : Option (Pointer O)) : Shared H O :=
  { s with handle := Function.update s.handle h p }

/-- `_ptr = ptr`. -/
def point (h : H) (ptr : Option O) : Shared H O := s.setHandle h (some (.of ptr))

/-- `ref` of a handle with this `_ptr`. -/
def ref : Option O → Shared H O
  | none => s
  | some o =>
    { s with
      refc := Function.update s.refc o (s.refc o + 1)
      fault := if s.refc o ≤ 0 then some .referenceAfterFree else s.fault }

/-- A handle adopts a `T*`; somebody must have given it up, unless it is null. -/
def adopt : Option O → Option (Shared H O)
  | none => some s
  | some o =>
    if s.given o = 0 then none
    else some { s with given := Function.update s.given o (s.given o - 1) }

/-- A handle gives its `T*` up. -/
def give : Option O → Shared H O
  | none => s
  | some o => { s with given := Function.update s.given o (s.given o + 1) }

/-- `unref` of the handle `h`, which is `p`, up to the hook. `checks` says that `T` has a check. -/
def unref (h : H) (p : Pointer O) : Shared H O × Unref :=
  match p.ptr with
  | none => (s, .done)
  | some o =>
    let t := { s with refc := Function.update s.refc o (s.refc o - 1) }
    if s.refc o = 1 then ({ t.point h none with released := o :: s.released }, .hook)
    else (t.setHandle h (some (.stale o)),
      if checks ∧ s.refc o = 2 then .hook else if s.refc o = 0 then .doubleFree else .done)

/-- What an operation does after `unref`. -/
def finish : Assignment H O → Option (Shared H O)
  | .copy h other =>
    match s.handle h, s.handle other with
    | some _, some p => some ((s.point h p.ptr).ref p.ptr)
    | _, _ => some { s with fault := some .dangling }
  | .move h other =>
    match s.handle h, s.handle other with
    | some _, some p => some ((s.point h p.ptr).point other none)
    | _, _ => some { s with fault := some .dangling }
  | .reset h ptr =>
    match s.handle h with
    | some _ => (s.adopt ptr).map fun s => s.point h ptr
    | none => some { s with fault := some .dangling }
  | .destroy h =>
    match s.handle h with
    | some _ => some (s.setHandle h none)
    | none => some { s with fault := some .dangling }

/-- An operation on a handle that is alive, up to its end or its hook. -/
def start (a : Assignment H O) : Option (Shared H O) :=
  (s.handle a.target).bind fun p =>
    if a.source.any (fun other => (s.handle other).isNone) then none
    else
      match s.unref checks a.target p with
      | (s, .done) => s.finish a
      | (s, .hook) => some { s with stack := a :: s.stack }
      | (s, .doubleFree) => some { s with fault := some .doubleFree }

/-- One operation. There is no next state after `error::fatal`, and where the operation makes no sense:
    a handle is constructed twice or used while it is not alive, an object is created twice, or a `T*`
    is adopted that nobody gave up. -/
def step (op : PointerOp H O) : Option (Shared H O) :=
  if s.fault.isSome then none
  else
    match op with
    | .create o =>
      if s.created o then none
      else some { s with
        created := Function.update s.created o true
        refc := Function.update s.refc o 1
        given := Function.update s.given o (s.given o + 1) }
    | .construct h ptr =>
      if (s.handle h).isSome then none else (s.adopt ptr).map fun s => s.point h ptr
    | .copyConstruct h other =>
      if (s.handle h).isSome then none
      else (s.handle other).map fun p => (s.point h p.ptr).ref p.ptr
    | .moveConstruct h other =>
      if (s.handle h).isSome then none
      else (s.handle other).map fun p => (s.point h p.ptr).point other none
    | .sharedFromThis h o =>
      if (s.handle h).isSome ∨ s.created o = false then none
      else some ((s.point h (some o)).ref (some o))
    | .release h => (s.handle h).map fun p => (s.point h none).give p.ptr
    | .assign a => s.start checks a
    | .hookReturn =>
      match s.stack with
      | [] => none
      | a :: stack => finish { s with stack } a

end Code

/-! ### What is claimed of a state, and when -/

variable (s : Shared H O)

def ptr (h : H) : Option O := (s.handle h).bind Pointer.ptr

/-- The object whose reference `h` owns. -/
def owns (h : H) : Option O := (s.handle h).bind Pointer.owns

/-- The object that `h` points to without a reference. -/
def lacks (h : H) : Option O := (s.handle h).bind Pointer.lacks

/-- The references to `o`: those that handles own, and those that were given up. -/
noncomputable def references (o : O) : Nat := number s.owns o + s.given o

/-- Every count is exact, each release hook ran once, when the last reference went, and the program was
    not aborted. -/
structure Exact [DecidableEq O] : Prop where
  counted : ∀ o, s.refc o = s.references o
  released : ∀ o, s.released.count o = if s.created o = true ∧ s.references o = 0 then 1 else 0
  fault : s.fault = none

/-- The object has a reference, if there is one. -/
def Referenced : Option O → Prop
  | none => True
  | some o => 0 < s.refc o

instance : ∀ ptr, Decidable (s.Referenced ptr)
  | none => .isTrue trivial
  | some o => inferInstanceAs (Decidable (0 < s.refc o))

/-- `unref` of `h` would run a hook. -/
def runsHook (checks : Bool) (h : H) : Bool :=
  match s.ptr h with
  | none => false
  | some o => s.refc o == 1 || (checks && s.refc o == 2)

/-- Handle and source are still there. -/
def Alive (a : Assignment H O) : Prop :=
  (s.handle a.target).isSome ∧ ∀ other ∈ a.source, (s.handle other).isSome

instance (a : Assignment H O) : Decidable (s.Alive a) :=
  inferInstanceAs (Decidable ((s.handle a.target).isSome ∧ ∀ other ∈ a.source, (s.handle other).isSome))

/-- The object that a move takes from a handle that has no reference to it. -/
def taken : Assignment H O → Option O
  | .move _ other => s.lacks other
  | .copy .. | .reset .. | .destroy _ => none

/-- The object that is copied has a reference. -/
def Readable : Assignment H O → Prop
  | .copy _ other => s.Referenced (s.ptr other)
  | .move .. | .reset .. | .destroy _ => True

instance : ∀ a : Assignment H O, Decidable (s.Readable a)
  | .copy _ other => inferInstanceAs (Decidable (s.Referenced (s.ptr other)))
  | .move .. | .reset .. | .destroy _ => .isTrue trivial

/-- After a hook: handle and source are there, what is copied has a reference, and the reference that
    the handle has got in the meantime, and now loses, is what a move takes without one. -/
structure Finishable (a : Assignment H O) : Prop where
  alive : s.Alive a
  readable : s.Readable a
  owns : s.owns a.target = s.taken a

instance [DecidableEq O] (a : Assignment H O) : Decidable (s.Finishable a) :=
  decidable_of_iff (s.Alive a ∧ s.Readable a ∧ s.owns a.target = s.taken a)
    ⟨fun h => ⟨h.1, h.2.1, h.2.2⟩, fun h => ⟨h.alive, h.readable, h.owns⟩⟩

/-- A handle can be assigned to itself where no hook runs, and moved to itself where it is null. -/
def Harmless (checks : Bool) : Assignment H O → Prop
  | .copy h _ => s.runsHook checks h = false
  | .move h _ => s.ptr h = none
  | .reset .. | .destroy _ => True

instance (checks : Bool) : ∀ a : Assignment H O, Decidable (s.Harmless checks a)
  | .copy h _ => inferInstanceAs (Decidable (s.runsHook checks h = false))
  | .move h _ => decidable_of_iff ((s.ptr h).isNone = true) Option.isNone_iff_eq_none
  | .reset .. | .destroy _ => .isTrue trivial

/-- The condition of an operation. A stale handle is only copied from, while its object has a
    reference; the same holds of what `shared_from_this` is called on. -/
def Sane [DecidableEq H] (checks : Bool) : PointerOp H O → Prop
  | .create _ | .construct _ _ => True
  | .copyConstruct _ other => s.Referenced (s.ptr other)
  | .sharedFromThis _ o => s.Referenced (some o)
  | .moveConstruct _ other | .release other => s.lacks other = none
  | .assign a => s.lacks a.target = none ∧
      if a.IsSelf then s.Harmless checks a
      else s.runsHook checks a.target ∨ s.Readable a ∧ s.taken a = none
  | .hookReturn => ∀ a ∈ s.stack.head?, s.Finishable a

instance [DecidableEq H] [DecidableEq O] (checks : Bool) : ∀ op, Decidable (s.Sane checks op)
  | .create _ | .construct _ _ => .isTrue trivial
  | .copyConstruct _ other => inferInstanceAs (Decidable (s.Referenced (s.ptr other)))
  | .sharedFromThis _ o => inferInstanceAs (Decidable (s.Referenced (some o)))
  | .moveConstruct _ other | .release other => inferInstanceAs (Decidable (s.lacks other = none))
  | .assign a => inferInstanceAs (Decidable (s.lacks a.target = none ∧
      if a.IsSelf then s.Harmless checks a
      else s.runsHook checks a.target ∨ s.Readable a ∧ s.taken a = none))
  | .hookReturn => inferInstanceAs (Decidable (∀ a ∈ s.stack.head?, s.Finishable a))

end Shared

/-- A handle is assigned to itself. -/
def PointerOp.IsSelf : PointerOp H O → Prop
  | .assign a => a.IsSelf
  | _ => False

end Jinx
