import Jinx.Http.BufferView
import Jinx.Sync.PoolCount

/-! A `BufferPool` together with the handles to its buffers.

    A handle is a `PointerShared`: a pointer, which counts in the `_refc` of its buffer. Handles are
    variables of the program, and the result of an `Allocate` is one. The pool is that of
    `BufferPool`; here it comes with the handles, the views of the buffers, the buffers that went back
    to the provider, and with what every buffer was like when it was handed out. -/

namespace Jinx.Sync

open Jinx.Http (BufferView)

/-- A variable that is a handle. -/
abbrev HandleId := Nat

/-- A buffer that is handed out, as its new holder finds it. -/
structure Handed where
  mem : MemId
  refc : Nat
  view : BufferView
  deriving DecidableEq, Repr

/-- `size` is the `_size` of the pool; a buffer that does not exist yet has the view its constructor
    will give it. -/
structure Buffers where
  pool : BufferPool
  size : Nat
  handle : HandleId → Option MemId := fun _ => none
  view : MemId → BufferView := fun _ => .empty size
  freed : List MemId := []
  handed : List Handed := []

namespace Buffers

/-- Change the record of one `Allocate`. -/
def modify (s : Buffers) (i : Id) (f : Allocate → Allocate) : Buffers :=
  { s with pool := s.pool.modify i f }

/-! ### `BufferPool` -/

/-- `BufferMemory::reset`, and the buffer gets a holder. -/
def hand (s : Buffers) (pool : BufferPool) (m : MemId) : Buffers :=
  let view := Function.update s.view m (.empty s.size)
  { s with pool := pool, view := view, handed := ⟨m, pool.refc m, view m⟩ :: s.handed }

/-- `BufferPool::allocate`. -/
def allocate (s : Buffers) (mem : Bool) : Option (Buffers × Option MemId) :=
  (s.pool.allocate mem).map fun
    | (pool, some m) => (s.hand pool m, some m)
    | (pool, none) => ({ s with pool := pool }, none)

/-- `BufferPool::release`. -/
def release (s : Buffers) (m : MemId) : Option Buffers :=
  (s.pool.release m).map fun pool =>
    if s.pool.pendingRequests ≠ [] then s.hand pool m
    else if s.pool.reserve ≤ s.pool.reserveBuffers.length then
      { s with pool := pool, freed := m :: s.freed }
    else { s with pool := pool }

/-- The first loop of `reconfigure`. -/
def shrink (s : Buffers) : Nat → Option Buffers
  | 0 => some s
  | n + 1 =>
    match s.pool.reserveBuffers with
    | [] => some s
    | m :: rest =>
      if s.pool.reserve < s.pool.reserveBuffers.length then
        ({ s with pool := { s.pool with reserveBuffers := rest } }.release m).bind fun s => s.shrink n
      else some s

/-- `BufferPool::reconfigure`. -/
def reconfigure (s : Buffers) (reserve : Nat) (limit : UInt64) (grants : Nat) : Option Buffers :=
  let s := { s with pool := { s.pool with reserve := reserve, limit := limit } }
  (s.shrink s.pool.reserveBuffers.length).map fun s => { s with pool := s.pool.grow grants }

/-! ### `PointerShared` -/

/-- `fetch_sub(1)` for a pointer to `m`, and what follows from it. The pointer of the last holder is
    gone by then. A count of zero is `error::fatal("shared pointer double free")`. -/
def fetchSub (s : Buffers) (m : MemId) : Option Buffers :=
  if s.pool.refc m = 0 then none
  else
    let s' := { s with pool := { s.pool with refc := Function.update s.pool.refc m (s.pool.refc m - 1) } }
    if s.pool.refc m = 1 then s'.release m else some s'

/-- `PointerShared::unref`; only the last holder has its pointer set to null. -/
def unref (s : Buffers) (h : HandleId) : Option Buffers :=
  match s.handle h with
  | none => some s
  | some m =>
    if s.pool.refc m = 1 then { s with handle := Function.update s.handle h none }.fetchSub m
    else s.fetchSub m

/-- `PointerShared::ref`; a count of zero is `error::fatal("reference after free")`. -/
def ref (s : Buffers) (h : HandleId) : Option Buffers :=
  match s.handle h with
  | none => some s
  | some m =>
    if s.pool.refc m = 0 then none
    else some
      { s with pool := { s.pool with refc := Function.update s.pool.refc m (s.pool.refc m + 1) } }

/-- `_ptr = ptr`. -/
def point (s : Buffers) (h : HandleId) (ptr : Option MemId) : Buffers :=
  { s with handle := Function.update s.handle h ptr }

/-- `operator =(const PointerShared&)`. -/
def copyAssign (s : Buffers) (h other : HandleId) : Option Buffers :=
  (s.unref h).bind fun s => (s.point h (s.handle other)).ref h

/-- `operator =(PointerShared&&)`. -/
def moveAssign (s : Buffers) (h other : HandleId) : Option Buffers :=
  (s.unref h).map fun s => (s.point h (s.handle other)).point other none

/-- The same from a temporary; with null, `reset` and the destructor. -/
def assign (s : Buffers) (h : HandleId) (ptr : Option MemId) : Option Buffers :=
  (s.unref h).map fun s => s.point h ptr

/-! ### `Allocate` -/

/-- `reset` of the result. -/
def dropResult (s : Buffers) (i : Id) : Option Buffers :=
  match (s.pool.aw i).result with
  | none => some s
  | some m => (s.modify i fun a => { a with result := none }).fetchSub m

/-- `Allocate::operator()`. -/
def operator (s : Buffers) (i : Id) : Option Buffers :=
  (s.modify i fun a => { a with pool := true }).dropResult i

/-- `Allocate::async_poll`. -/
def asyncPoll (s : Buffers) (i : Id) (mem : Bool) : Option (Buffers × Async) :=
  if (s.pool.aw i).result.isSome then some (s, .returned)
  else
    (s.allocate mem).map fun
      | (s, some m) => (s.modify i fun a => { a with result := some m }, .returned)
      | (s, none) =>
        match LinkedList.pushBack s.pool.pendingRequests i with
        | (_, .failed) => (s, .thrown ErrorAllocate.registerAllocateError.error)
        | (l, .successful) => ({ s with pool := { s.pool with pendingRequests := l } }, .suspended)

/-- What the answer means for the task. -/
def answer (i : Id) (r : Buffers × Async) : Buffers :=
  { r.1 with pool := BufferPool.answer i (r.1.pool, r.2) }

end Buffers

/-- What can happen. A handle is assigned the buffer that `allocate` returns, a copy of another handle,
    or what is moved out of another handle; it is dropped; its holder works on the view. An `Allocate`
    is awaited, its task runs, is resumed or cancelled, the result is moved into a handle, or the
    object is destroyed. The pool is reconfigured. -/
inductive BufferOp where
  | allocate (h : HandleId) (mem : Bool)
  | copy (h other : HandleId)
  | move (h other : HandleId)
  | drop (h : HandleId)
  | use (h : HandleId) (view : BufferView)
  | request (i : Id) (mem : Bool)
  | run (i : Id) (mem : Bool)
  | resume (i : Id)
  | cancel (i : Id)
  | take (i : Id) (h : HandleId)
  | destroy (i : Id)
  | reconfigure (reserve : Nat) (limit : UInt64) (grants : Nat)
  deriving DecidableEq, Repr

namespace Buffers

/-- The operations that make sense in a state. -/
def Enabled (s : Buffers) : BufferOp → Prop
  | .use h _ => s.handle h ≠ none
  | .request i _ | .destroy i => (s.pool.aw i).stage = .idle ∨ (s.pool.aw i).stage = .returned
  | .run i _ => (s.pool.aw i).stage = .scheduled
  | .cancel i => (s.pool.aw i).stage = .suspended ∨ (s.pool.aw i).stage = .scheduled
  | .take i _ => (s.pool.aw i).stage = .returned
  | _ => True

instance (s : Buffers) : ∀ a, Decidable (s.Enabled a)
  | .use h _ => inferInstanceAs (Decidable (s.handle h ≠ none))
  | .request i _ | .destroy i =>
    inferInstanceAs (Decidable ((s.pool.aw i).stage = .idle ∨ (s.pool.aw i).stage = .returned))
  | .run i _ => inferInstanceAs (Decidable ((s.pool.aw i).stage = .scheduled))
  | .cancel i =>
    inferInstanceAs (Decidable ((s.pool.aw i).stage = .suspended ∨ (s.pool.aw i).stage = .scheduled))
  | .take i _ => inferInstanceAs (Decidable ((s.pool.aw i).stage = .returned))
  | .allocate _ _ | .copy _ _ | .move _ _ | .drop _ | .resume _ | .reconfigure _ _ _ => .isTrue trivial

/-- One operation; `none` is `error::fatal`. -/
def run (s : Buffers) : BufferOp → Option Buffers
  | .allocate h mem => (s.allocate mem).bind fun (s, ptr) => s.assign h ptr
  | .copy h other => s.copyAssign h other
  | .move h other => s.moveAssign h other
  | .drop h => s.assign h none
  | .use h view => some
    { s with view := (s.handle h).elim s.view fun m => Function.update s.view m view }
  | .request i mem => (s.operator i).bind fun s => (s.asyncPoll i mem).map (answer i)
  | .run i mem => (s.asyncPoll i mem).map (answer i)
  | .resume i => some { s with pool := s.pool.resume i }
  | .cancel i => some
    { s with pool := (s.pool.asyncFinalize i).modify i fun a => { a with stage := .idle } }
  | .take i h =>
    (s.modify i fun a => { a with result := none, stage := .idle }).assign h (s.pool.aw i).result
  | .destroy i => (s.modify i fun a => { a with stage := .idle }).dropResult i
  | .reconfigure reserve limit grants => s.reconfigure reserve limit grants

def step (s : Buffers) (a : BufferOp) : Option Buffers := if s.Enabled a then s.run a else none

/-- A pool that was just constructed. -/
def init (reserve : Nat) (limit : UInt64) (grants size : Nat) : Buffers :=
  { pool := .init reserve limit grants, size }

/-- Runs of a pool and of those who use it. -/
abbrev exec : Buffers → List BufferOp → Option Buffers := Runs.exec step

end Buffers

end Jinx.Sync
