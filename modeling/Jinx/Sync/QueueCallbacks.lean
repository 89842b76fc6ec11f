import Jinx.Sync.Queue
import Mathlib.Data.List.Perm.Subperm

/-! `Queue2::get` and `Queue2::put` with callbacks that call them again.

    The awaitables of the other modules do nothing in their callbacks that the queue would see. Here a
    callback is any code: while `queue2_get` or `queue2_put` runs, the call that made it is a frame on the
    stack, and every operation of the queue may be started above it. `value` and `done` are how the
    innermost callback returns, and the rest of `get` or `put` follows in the same step. -/

namespace Jinx.Sync

inductive Queue2Status where
  | complete
  | pending
  | error
  deriving DecidableEq, Repr

/-- A call of `get` or `put` that waits for a callback. -/
inductive Frame where
  /-- `get(node)` in `put->queue2_put()` -/
  | getObtains (node put : Id)
  /-- `get(node)` in `node->queue2_get(..)`, before `_pending_put.pop_back()` -/
  | getServes (node put : Id)
  /-- `get(node)` in `node->queue2_get(std::move(front()))`, before `pop()` -/
  | getFront (node : Id)
  /-- `put(node)` in `node->queue2_put()`, for a `get` that was pending -/
  | putObtains (node get : Id)
  /-- `put(node)` in `get->queue2_get(..)`, the last thing it does -/
  | putServes (node get : Id)
  /-- `put(node)` in `get->queue2_get(std::move(front()))`, before `pop()` and the next round -/
  | putFront (node get : Id)
  /-- `put(node)` in `node->queue2_put()`, before `emplace` -/
  | putStores (node : Id)
  deriving DecidableEq, Repr

/-- The pending put that the frame has chosen, and that is in the list until the frame is done. -/
def Frame.serving? : Frame → Option Id
  | getObtains _ put => some put
  | getServes _ put => some put
  | _ => none

/-- The get that the frame will serve when `queue2_put` returns. -/
def Frame.awaits? : Frame → Option Id
  | getObtains node _ => some node
  | putObtains _ get => some get
  | _ => none

/-- The frame is handing the front out, which is in the container until the frame is done. -/
def Frame.handsFront : Frame → Bool
  | getFront _ => true
  | putFront _ _ => true
  | _ => false

/-- What is observed of a run. -/
inductive CallbackEvent (α : Type*) where
  /-- what `get(node)` returns; it is settled before the callbacks are called -/
  | get (node : Id) (st : Queue2Status)
  | put (node : Id) (st : Queue2Status)
  /-- `queue2_put` is called -/
  | queue2Put (node : Id)
  /-- `queue2_put` has returned a value -/
  | obtained (v : α)
  /-- `queue2_get` is called -/
  | queue2Get (node : Id) (v : α)
  /-- `pop_back` takes this node out, for that one -/
  | removedGet (node served : Id)
  | removedPut (node served : Id)
  deriving DecidableEq, Repr

/-- What `pop_back` has taken out is the node that was served. -/
def CallbackEvent.TakesServed {α : Type*} : CallbackEvent α → Prop
  | removedGet node served => node = served
  | removedPut node served => node = served
  | _ => True

/-- A `Queue2`, and the calls that are being made. `log` has the latest event first. -/
structure Queue2 (α : Type*) extends QueueBase α where
  pendingGet : List Id := []
  pendingPut : List Id := []
  stack : List Frame := []
  /-- a null pointer was followed, or an empty container popped -/
  crashed : Bool := false
  log : List (CallbackEvent α) := []

namespace Queue2

variable {α : Type*}

def emit (s : Queue2 α) (e : CallbackEvent α) : Queue2 α := { s with log := e :: s.log }

def push (s : Queue2 α) (f : Frame) : Queue2 α := { s with stack := f :: s.stack }

/-- `pop()` of the container. -/
def pop (s : Queue2 α) : Queue2 α :=
  match s.container with
  | [] => { s with crashed := true }
  | _ :: rest => { s with container := rest }

/-- `_pending_put.pop_back()`, after `put` was served. -/
def popBack (s : Queue2 α) (put : Id) : Queue2 α :=
  match s.pendingPut.getLast? with
  | none => { s with crashed := true }
  | some p => { s with pendingPut := s.pendingPut.dropLast }.emit (.removedPut p put)

/-- `get(node)`, up to the first callback. `linked`: the node is in a list of another queue. -/
def get (s : Queue2 α) (node : Id) (linked : Bool) : Queue2 α :=
  match s.container with
  | v :: _ =>
    ((s.emit (.get node .complete)).emit (.queue2Get node v)).push (.getFront node)
  | [] =>
    match s.pendingPut.getLast? with
    | some put =>
      ((s.emit (.get node .complete)).emit (.queue2Put put)).push (.getObtains node put)
    | none =>
      match linked, LinkedList.pushBack s.pendingGet node with
      | false, (l, .successful) => { s with pendingGet := l }.emit (.get node .pending)
      | _, _ => s.emit (.get node .error)

/-- `put(node)`, from the head of its loop up to the next callback. -/
def put (s : Queue2 α) (node : Id) (linked : Bool) : Queue2 α :=
  match s.pendingGet.getLast? with
  | some get =>
    let s := { s with pendingGet := s.pendingGet.dropLast }.emit (.removedGet get get)
    match s.container with
    | [] => ((s.emit (.put node .complete)).emit (.queue2Put node)).push (.putObtains node get)
    | v :: _ => (s.emit (.queue2Get get v)).push (.putFront node get)
  | none =>
    if s.full then
      match linked, LinkedList.pushBack s.pendingPut node with
      | false, (l, .successful) => { s with pendingPut := l }.emit (.put node .pending)
      | _, _ => s.emit (.put node .error)
    else ((s.emit (.put node .complete)).emit (.queue2Put node)).push (.putStores node)

/-- The innermost callback is a `queue2_put`, and returns `v`. -/
def value (s : Queue2 α) (v : α) : Option (Queue2 α) :=
  match s.stack with
  | .getObtains node put :: rest =>
    some (({ s with stack := .getServes node put :: rest }.emit (.obtained v)).emit (.queue2Get node v))
  | .putObtains node get :: rest =>
    some (({ s with stack := .putServes node get :: rest }.emit (.obtained v)).emit (.queue2Get get v))
  | .putStores _ :: rest =>
    some ({ s with stack := rest, container := s.container ++ [v] }.emit (.obtained v))
  | _ => none

/-- The innermost callback is a `queue2_get`, and returns. -/
def done (s : Queue2 α) (linked : Bool) : Option (Queue2 α) :=
  match s.stack with
  | .getServes _ put :: rest => some ({ s with stack := rest }.popBack put)
  | .getFront _ :: rest => some { s with stack := rest }.pop
  | .putServes _ _ :: rest => some { s with stack := rest }
  | .putFront node _ :: rest => some ({ s with stack := rest }.pop.put node linked)
  | _ => none

end Queue2

/-- What the code around the queue does: in a callback, or outside of all of them. -/
inductive CallbackOp (α : Type*) where
  | get (node : Id) (linked : Bool)
  | put (node : Id) (linked : Bool)
  | value (v : α)
  | done (linked : Bool)
  deriving DecidableEq, Repr

namespace Queue2

variable {α : Type*}

def step (s : Queue2 α) (op : CallbackOp α) : Option (Queue2 α) :=
  if s.crashed then none
  else
    match op with
    | .get node linked => some (s.get node linked)
    | .put node linked => some (s.put node linked)
    | .value v => s.value v
    | .done linked => s.done linked

abbrev exec : Queue2 α → List (CallbackOp α) → Option (Queue2 α) := Runs.exec step

/-- A queue in any state, before the first call: what is pending was accepted, and what is stored was
    obtained. -/
def start (q : QueueBase α) (gets puts : List Id) : Queue2 α :=
  { q with
    pendingGet := gets
    pendingPut := puts
    log := gets.map (.get · .pending) ++ (puts.map (.put · .pending) ++ q.container.map .obtained) }

/-! ### What is observed -/

/-- The nodes for which `get` has returned, or will return, `Complete` or `Pending`. -/
def acceptedGet (s : Queue2 α) : List Id :=
  s.log.filterMap fun
    | .get node .complete => some node
    | .get node .pending => some node
    | _ => none

def acceptedPut (s : Queue2 α) : List Id :=
  s.log.filterMap fun
    | .put node .complete => some node
    | .put node .pending => some node
    | _ => none

/-- The nodes whose `queue2_get` was called. -/
def callsGet (s : Queue2 α) : List Id :=
  s.log.filterMap fun | .queue2Get node _ => some node | _ => none

/-- The nodes whose `queue2_put` was called. -/
def callsPut (s : Queue2 α) : List Id :=
  s.log.filterMap fun | .queue2Put node => some node | _ => none

def obtained (s : Queue2 α) : List α :=
  s.log.filterMap fun | .obtained v => some v | _ => none

def delivered (s : Queue2 α) : List α :=
  s.log.filterMap fun | .queue2Get _ v => some v | _ => none

/-- The pending puts that are being served. -/
def serving (s : Queue2 α) : List Id := s.stack.filterMap Frame.serving?

/-- How often the front is being handed out. -/
def handing (s : Queue2 α) : Nat := s.stack.countP Frame.handsFront

/-- The values in the container that are not being handed out. -/
def stored (s : Queue2 α) : List α := s.container.drop s.handing

/-- Each party is served once: a callback is called at most once for each time its node was accepted, a
    node is only taken out of a list for itself, and each value obtained is delivered or stored. -/
structure ServedOnce (s : Queue2 α) : Prop where
  puts : s.callsPut.Subperm s.acceptedPut
  gets : s.callsGet.Subperm s.acceptedGet
  removed : ∀ e ∈ s.log, e.TakesServed
  values : s.obtained.Perm (s.delivered ++ s.stored)

/-- `put(node)` ends in the list `_pending_put`. -/
def Queues (s : Queue2 α) (node : Id) (linked : Bool) : Prop :=
  s.pendingGet = [] ∧ s.full = true ∧ linked = false ∧ node ∉ s.pendingPut

instance (s : Queue2 α) (node : Id) (linked : Bool) : Decidable (s.Queues node linked) :=
  inferInstanceAs (Decidable (_ ∧ _))

/-- The put that goes on with its loop when the innermost callback returns. -/
def looping? (s : Queue2 α) : Option Id :=
  match s.stack with
  | .putFront node _ :: _ => some node
  | _ => none

/-- The calls that do not come between a callback and what `get` and `put` do after it. -/
def Allowed (s : Queue2 α) : CallbackOp α → Prop
  | .get _ _ => ¬ (s.serving ≠ [] ∧ s.container = []) ∧ s.handing = 0
  | .put node linked =>
    ¬ (s.serving ≠ [] ∧ s.Queues node linked) ∧ (s.handing = 0 ∨ s.pendingGet = [])
  | .value _ => True
  | .done linked =>
    ∀ node ∈ s.looping?, ¬ (s.serving ≠ [] ∧ Queues { s with container := s.container.tail } node linked)

instance (s : Queue2 α) : ∀ op, Decidable (s.Allowed op)
  | .get _ _ => inferInstanceAs (Decidable (_ ∧ _))
  | .put _ _ => inferInstanceAs (Decidable (_ ∧ _))
  | .value _ => inferInstanceAs (Decidable True)
  | .done _ => inferInstanceAs (Decidable (∀ _ ∈ _, _))

/-! ### Between the callbacks -/

/-- The node that a `get` serves is the last of the pending puts until the `get` is done, so every
    accepted put is served, in the list or being served; the front that is handed out is still there. -/
structure Inv (s : Queue2 α) : Prop where
  alive : s.crashed = false
  puts : ∃ waiting, s.pendingPut = waiting ++ s.serving ∧ s.acceptedPut.Perm (s.callsPut ++ waiting)
  serving : s.serving.length ≤ 1
  gets : s.acceptedGet.Perm (s.callsGet ++ (s.stack.filterMap Frame.awaits? ++ s.pendingGet))
  handing : s.handing ≤ 1
  front : s.handing ≤ s.container.length
  values : s.obtained.Perm (s.delivered ++ s.stored)
  removed : ∀ e ∈ s.log, e.TakesServed

variable {s s' : Queue2 α} {node : Id} {linked : Bool}

theorem Inv.servedOnce (h : Inv s) : ServedOnce s where
  puts := by
    obtain ⟨waiting, -, hperm⟩ := h.puts
    exact (List.sublist_append_left _ waiting).subperm.trans hperm.symm.subperm
  gets := (List.sublist_append_left _ _).subperm.trans h.gets.symm.subperm
  removed := h.removed
  values := h.values

theorem stored_of_handing (h : s.handing = 0) : s.stored = s.container := by
  rw [stored, h, List.drop_zero]

/-- A callback that hands the front out begins. -/
theorem handing_push {f : Frame} (hf : f.handsFront = true) : (s.push f).handing = s.handing + 1 :=
  List.countP_cons_of_pos hf

/-- The front is delivered, and no longer counts as stored. -/
theorem Inv.handOut (h : Inv s) (hhanding : s.handing = 0) {v : α} {rest : List α}
    (hcontainer : s.container = v :: rest) :
    s.obtained.Perm (v :: s.delivered ++ s.container.drop 1) := by
  have hvalues := h.values
  rw [stored_of_handing hhanding, hcontainer] at hvalues
  rw [hcontainer]
  exact hvalues.trans List.perm_middle

/-- A last one is added to what waits. -/
theorem perm_snoc {β : Type*} {l m w : List β} (h : l.Perm (m ++ w)) (i : β) :
    (i :: l).Perm (m ++ (w ++ [i])) := by
  rw [← List.append_assoc]
  exact (h.cons i).trans (List.perm_append_singleton i (m ++ w)).symm

/-- The one that waited last is called. -/
theorem perm_call {l m w : List Id} {i : Id} (h : l.Perm (m ++ (w ++ [i]))) : l.Perm (i :: m ++ w) := by
  rw [← List.append_assoc] at h
  exact h.trans (List.perm_append_singleton i (m ++ w))

theorem Inv.emit (h : Inv s) {e : CallbackEvent α} (he : e.TakesServed)  :
    ∀ e' ∈ (s.emit e).log, e'.TakesServed := List.forall_mem_cons.mpr ⟨he, h.removed⟩

theorem inv_get (h : Inv s) (hserving : ¬ (s.serving ≠ [] ∧ s.container = []))
    (hhanding : s.handing = 0) : Inv (s.get node linked) := by
  unfold get
  cases hcontainer : s.container with
  | cons v rest =>
    have hone : (s.push (.getFront node)).handing = 1 := by rw [handing_push rfl, hhanding]
    refine { h with gets := h.gets.cons node, handing := Nat.le_of_eq hone, front := ?_, values := ?_,
                    removed := List.forall_mem_cons.mpr ⟨trivial, h.emit trivial⟩ }
    · refine Nat.le_trans (Nat.le_of_eq hone) ?_
      simp [push, Queue2.emit, hcontainer]
    · show s.obtained.Perm (v :: s.delivered ++ s.container.drop (s.push (.getFront node)).handing)
      rw [hone]
      exact h.handOut hhanding hcontainer
  | nil =>
    have hnone : s.serving = [] := by simpa [hcontainer] using hserving
    cases hlast : s.pendingPut.getLast? with
    | some put =>
      -- the last of the pending puts is being served from now on
      obtain ⟨waiting, hpending, hputs⟩ := h.puts
      obtain ⟨init, hinit⟩ := List.getLast?_eq_some_iff.mp hlast
      rw [hnone, List.append_nil, hinit] at hpending
      have hserves : put :: s.serving = [put] := by rw [hnone]
      refine { h with puts := ⟨init, ?_, perm_call (hpending ▸ hputs)⟩, serving := ?_,
                      gets := (h.gets.cons node).trans List.perm_middle.symm,
                      removed := List.forall_mem_cons.mpr ⟨trivial, h.emit trivial⟩ }
      · exact hinit.trans (congrArg (init ++ ·) hserves.symm)
      · exact Nat.le_of_eq (congrArg List.length hserves)
    | none =>
      cases linked with
      | true => exact { h with removed := h.emit trivial }
      | false =>
        by_cases hmem : node ∈ s.pendingGet
        · rw [LinkedList.pushBack_of_mem hmem]
          exact { h with removed := h.emit trivial }
        · rw [LinkedList.pushBack_of_not_mem hmem]
          have hgets := perm_snoc h.gets node
          rw [List.append_assoc] at hgets
          exact { h with gets := hgets, removed := h.emit trivial }

/-- A `put` where a `get` waits: it is handed the front of the container, or waits for a value. -/
theorem inv_put_waited {get : Id} (h : Inv s) (hlast : s.pendingGet.getLast? = some get)
    (hzero : s.handing = 0) : Inv (s.put node linked) := by
  obtain ⟨init, hinit⟩ := List.getLast?_eq_some_iff.mp hlast
  have hdrop : s.pendingGet.dropLast = init := by rw [hinit, List.dropLast_concat]
  have hgets := h.gets
  rw [hinit, ← List.append_assoc (s.stack.filterMap _)] at hgets
  simp only [put, hlast, hdrop]
  cases hcontainer : s.container with
  | nil =>
    simp only [Queue2.emit, hcontainer]
    obtain ⟨waiting, hpending, hputs⟩ := h.puts
    exact { h with puts := ⟨waiting, hpending, hputs.cons node⟩,
                   gets := (perm_call hgets).trans List.perm_middle.symm,
                   removed := List.forall_mem_cons.mpr ⟨trivial, List.forall_mem_cons.mpr
                     ⟨trivial, h.emit rfl⟩⟩ }
  | cons v rest =>
    simp only [Queue2.emit, hcontainer]
    have hone : (s.push (.putFront node get)).handing = 1 := by rw [handing_push rfl, hzero]
    refine { h with gets := perm_call hgets, handing := Nat.le_of_eq hone, front := ?_, values := ?_,
                    removed := List.forall_mem_cons.mpr ⟨trivial, h.emit rfl⟩ }
    · refine Nat.le_trans (Nat.le_of_eq hone) ?_
      simp [push, hcontainer]
    · show s.obtained.Perm (v :: s.delivered ++ s.container.drop (s.push (.putFront node get)).handing)
      rw [hone]
      exact h.handOut hzero hcontainer

/-- A `put` where no `get` waits. A full queue keeps it, unless it is linked or there already; that
    is right only where no other put is served. -/
theorem inv_put_unwaited (h : Inv s) (hlast : s.pendingGet.getLast? = none)
    (hqueues : ¬ (s.serving ≠ [] ∧ s.Queues node linked)) : Inv (s.put node linked) := by
  obtain ⟨waiting, hpending, hputs⟩ := h.puts
  simp only [put, hlast]
  by_cases hfull : s.full = true
  · simp only [hfull, if_true]
    cases linked with
    | true => exact { h with removed := h.emit trivial }
    | false =>
      by_cases hmem : node ∈ s.pendingPut
      · rw [LinkedList.pushBack_of_mem hmem]
        exact { h with removed := h.emit trivial }
      · rw [LinkedList.pushBack_of_not_mem hmem]
        have hnone : s.serving = [] := by
          by_contra hne
          exact hqueues ⟨hne, List.getLast?_eq_none_iff.mp hlast, hfull, rfl, hmem⟩
        refine { h with puts := ⟨waiting ++ [node], ?_, perm_snoc hputs node⟩,
                        removed := h.emit trivial }
        show s.pendingPut ++ [node] = waiting ++ [node] ++ s.serving
        rw [hpending, hnone, List.append_nil, List.append_nil]
  · rw [if_neg hfull]
    exact { h with puts := ⟨waiting, hpending, hputs.cons node⟩,
                   removed := List.forall_mem_cons.mpr ⟨trivial, h.emit trivial⟩ }

theorem inv_put (h : Inv s) (hqueues : ¬ (s.serving ≠ [] ∧ s.Queues node linked))
    (hhanding : s.handing = 0 ∨ s.pendingGet = []) : Inv (s.put node linked) := by
  cases hlast : s.pendingGet.getLast? with
  | none => exact inv_put_unwaited h hlast hqueues
  | some get =>
    have hne : s.pendingGet ≠ [] := fun hnil => by simp [hnil] at hlast
    exact inv_put_waited h hlast (hhanding.resolve_right hne)

theorem Inv.with_stack {l : List Frame} (h : Inv s) (hstack : s.stack = l) : Inv { s with stack := l } :=
  hstack ▸ h

theorem inv_value {v : α} (h : Inv s) (hstep : s.value v = some s') : Inv s' := by
  unfold value at hstep
  split at hstep
  case h_1 node put rest hstack =>
    obtain rfl := Option.some.inj hstep
    have h := h.with_stack hstack
    exact { h with gets := h.gets.trans List.perm_middle, values := h.values.cons v,
                   removed := List.forall_mem_cons.mpr ⟨trivial, h.emit trivial⟩ }
  case h_2 node get rest hstack =>
    obtain rfl := Option.some.inj hstep
    have h := h.with_stack hstack
    exact { h with gets := h.gets.trans List.perm_middle, values := h.values.cons v,
                   removed := List.forall_mem_cons.mpr ⟨trivial, h.emit trivial⟩ }
  case h_3 node rest hstack =>
    obtain rfl := Option.some.inj hstep
    have h := h.with_stack hstack
    refine { h with front := ?_, values := ?_, removed := h.emit trivial }
    · refine Nat.le_trans h.front ?_
      show s.container.length ≤ (s.container ++ [v]).length
      simp
    · have hvalues := perm_snoc h.values v
      rw [stored, ← List.drop_append_of_le_length h.front] at hvalues
      exact hvalues
  case h_4 => cases hstep

/-- The front that was handed out leaves the container. -/
theorem inv_pop {f : Frame} {rest : List Frame} (h : Inv { s with stack := f :: rest })
    (hf : f.handsFront = true) (hserving : f.serving? = none) (hawaits : f.awaits? = none) :
    pop { s with stack := rest } = { s with stack := rest, container := s.container.tail } ∧
      handing { s with stack := rest } = 0 ∧
      Inv { s with stack := rest, container := s.container.tail } := by
  have hcount : handing { s with stack := f :: rest } = handing { s with stack := rest } + 1 :=
    List.countP_cons_of_pos hf
  have hzero : handing { s with stack := rest } = 0 := by
    have := h.handing
    omega
  have hsame : serving { s with stack := f :: rest } = serving { s with stack := rest } :=
    List.filterMap_cons_none hserving
  cases hcontainer : s.container with
  | nil =>
    have hfront := h.front
    rw [hcount] at hfront
    simp [hcontainer] at hfront
  | cons v c =>
    obtain ⟨waiting, hpending, hputs⟩ := h.puts
    have hgets := h.gets
    rw [List.filterMap_cons_none hawaits] at hgets
    have hvalues := h.values
    rw [stored, hcount, hzero, hcontainer] at hvalues
    have hstored : stored { s with stack := rest, container := c } = c := stored_of_handing hzero
    refine ⟨by simp [pop, hcontainer], hzero, ?_⟩
    exact { alive := h.alive, puts := ⟨waiting, hpending.trans (congrArg (waiting ++ ·) hsame), hputs⟩,
            serving := hsame ▸ h.serving, gets := hgets,
            handing := Nat.le_trans (Nat.le_of_eq hzero) (Nat.zero_le 1),
            front := Nat.le_trans (Nat.le_of_eq hzero) (Nat.zero_le _),
            values := hvalues.trans (List.Perm.of_eq (congrArg (s.delivered ++ ·) hstored.symm)),
            removed := h.removed }

theorem inv_done (h : Inv s) (hallowed : s.Allowed (.done linked)) (hstep : s.done linked = some s') :
    Inv s' := by
  unfold done at hstep
  split at hstep
  case h_1 node put rest hstack =>
    obtain rfl := Option.some.inj hstep
    have h := h.with_stack hstack
    obtain ⟨waiting, hpending, hputs⟩ := h.puts
    -- no other put is being served, so this one is still the last
    have hnone : serving { s with stack := rest } = [] :=
      List.eq_nil_of_length_eq_zero (Nat.le_zero.mp (Nat.le_of_succ_le_succ h.serving))
    have hlast : s.pendingPut = waiting ++ [put] := hpending.trans (congrArg (waiting ++ put :: ·) hnone)
    have hpop : popBack { s with stack := rest } put =
        Queue2.emit { s with stack := rest, pendingPut := waiting } (.removedPut put put) := by
      simp [popBack, hlast]
    rw [hpop]
    have hwaiting : waiting = waiting ++ serving { s with stack := rest } := by
      rw [hnone, List.append_nil]
    exact { h with puts := ⟨waiting, hwaiting, hputs⟩,
                   serving := Nat.le_trans (Nat.le_of_eq (congrArg List.length hnone)) (Nat.zero_le 1),
                   removed := h.emit rfl }
  case h_2 node rest hstack =>
    obtain rfl := Option.some.inj hstep
    obtain ⟨hpop, -, hinv⟩ := inv_pop (h.with_stack hstack) rfl rfl rfl
    exact hpop ▸ hinv
  case h_3 node get rest hstack =>
    obtain rfl := Option.some.inj hstep
    have h := h.with_stack hstack
    exact { h with }
  case h_4 node get rest hstack =>
    obtain rfl := Option.some.inj hstep
    obtain ⟨hpop, hzero, hinv⟩ := inv_pop (h.with_stack hstack) rfl rfl rfl
    rw [hpop]
    have hloop : node ∈ s.looping? := by rw [looping?, hstack]; rfl
    refine inv_put hinv (fun hqueues => hallowed node hloop ⟨?_, hqueues.2⟩) (.inl hzero)
    rw [serving, hstack]
    exact hqueues.1
  case h_5 => cases hstep

theorem inv_step {op : CallbackOp α} (h : Inv s) (hallowed : s.Allowed op) (hstep : step s op = some s') :
    Inv s' := by
  simp only [step, h.alive, Bool.false_eq_true, if_false] at hstep
  cases op with
  | get node linked =>
    obtain rfl := Option.some.inj hstep
    exact inv_get h hallowed.1 hallowed.2
  | put node linked =>
    obtain rfl := Option.some.inj hstep
    exact inv_put h hallowed.1 hallowed.2
  | value v => exact inv_value h hstep
  | done linked => exact inv_done h hallowed hstep

theorem inv_start (q : QueueBase α) (gets puts : List Id) : Inv (start q gets puts) := by
  refine ⟨rfl, ⟨puts, (List.append_nil puts).symm, ?_⟩, Nat.zero_le 1, ?_, Nat.zero_le 1,
    Nat.zero_le _, ?_, ?_⟩
  · simp [start, acceptedPut, callsPut]
  · simp [start, acceptedGet, callsGet]
  · simp [start, obtained, delivered, stored, handing]
  · simp only [start, List.mem_append, List.mem_map]
    rintro e (⟨g, -, rfl⟩ | ⟨p, -, rfl⟩ | ⟨v, -, rfl⟩) <;> trivial

/-- In every run from any state whose callbacks make allowed calls only, each party is served once in
    all states. -/
theorem served_once (q : QueueBase α) (gets puts : List Id) (ops : List (CallbackOp α))
    (hallowed : Runs.Meets step Allowed (start q gets puts) ops) :
    Runs.Always step ServedOnce (start q gets puts) ops :=
  Runs.always_of_meets (fun _ _ _ h hC hstep => inv_step h hC hstep) (fun _ h => h.servedOnce) ops _
    (inv_start q gets puts) hallowed

/-- A put is queued while the front is handed out. -/
theorem served_once_nested :
    Runs.Always step ServedOnce (start { maxSize := 1, container := [10] } [] [])
      [.get 1 false, .put 2 false, .done false] := served_once _ _ _ _ (by decide)

/-- The `queue2_put` of the pending put 2 calls `get` for 5 while it is served to 4: it is called again
    for the same put. -/
theorem put_called_twice :
    ∃ s, exec (start { maxSize := 1 } [] [])
        [.put 1 false, .value 10, .put 2 false, .get 3 false, .done false, .get 4 false, .get 5 false] =
          some s ∧ ¬ ServedOnce (α := Nat) s :=
  ⟨_, rfl, fun h => absurd h.puts.length_le (by decide)⟩

end Queue2

end Jinx.Sync
