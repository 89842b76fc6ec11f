import Jinx.Lib.LinkedList
import Jinx.Await.Machine

/-! The call chain of a task.

    The frames of a task are a linked list through `_caller` that ends at the task. A paused frame
    stays in it, below the frame it has handed control to. What a frame is doing is read off the log:
    it is `started`, it may be `parked` (it paused and was not re-entered since), and `awaiterOf` is
    the frame that awaited it last. `Frames` says how the pointers hang together with that. -/

namespace Jinx.Await

open LinkedList

/-! ### What the log says of a frame -/

/-- `f` was awaited, or is the entry. -/
def started (log : List Event) (f : ObjId) : Bool :=
  log.any fun
    | .called _ g => g == f
    | _ => false

/-- `f` is started and not finalized. -/
def live (log : List Event) (f : ObjId) : Bool := started log f && !log.contains (.finalized f)

/-- `f` has paused and was not re-entered since. -/
def parked : List Event → ObjId → Bool
  | [], _ => false
  | .paused g :: l, f => g == f || parked l f
  | .reentered g :: l, f => g != f && parked l f
  | _ :: l, f => parked l f

/-- Who awaited `f` last. -/
def awaiterOf : List Event → ObjId → Ptr
  | [], _ => .null
  | .called p g :: l, f => if g = f then p else awaiterOf l f
  | _ :: l, f => awaiterOf l f

/-- An event that starts, pauses or re-enters no frame. -/
def Event.quiet : Event → Bool
  | .called _ _ | .paused _ | .reentered _ => false
  | _ => true

section Log

variable {log es : List Event} {e : Event} {f g : ObjId} {p : Ptr}

theorem started_cons : started (e :: log) f = true ↔ (∃ p, e = .called p f) ∨ started log f = true := by
  cases e <;> simp [started]

theorem started_called : started (.called p g :: log) f = (g == f || started log f) := rfl

theorem started_quiet (h : e.quiet = true) : started (e :: log) f = started log f := by
  cases e <;> simp_all [started, Event.quiet]

theorem parked_quiet (h : e.quiet = true) : parked (e :: log) f = parked log f := by
  cases e <;> simp_all [parked, Event.quiet]

theorem awaiterOf_quiet (h : e.quiet = true) : awaiterOf (e :: log) f = awaiterOf log f := by
  cases e <;> simp_all [awaiterOf, Event.quiet]

theorem live_iff : live log f = true ↔ started log f = true ∧ .finalized f ∉ log := by
  simp [live]

/-- What was live before, if it is live and was started then. -/
theorem live_of_cons {log' : List Event} (hlog : log' = e :: log)
    (hstarted : started log' f = started log f) (h : live log' f = true) : live log f = true := by
  obtain ⟨hs, hfin⟩ := live_iff.mp h
  refine live_iff.mpr ⟨hstarted ▸ hs, fun hc => hfin ?_⟩
  rw [hlog]
  exact List.mem_cons_of_mem e hc

end Log

/-- The first frame of the list that is not parked; below the last frame there is the task. -/
def nextActive (log : List Event) : List ObjId → Ptr
  | [] => .task
  | f :: L => if parked log f then nextActive log L else .obj f

/-- Every frame that is not parked was awaited by the next one below it that is not. -/
def Awaited (log : List Event) : List ObjId → Prop
  | [] => True
  | f :: L => (parked log f = false → awaiterOf log f = nextActive log L) ∧ Awaited log L

section Lists

variable {log log' : List Event} {p : ObjId} {L X Y : List ObjId}

theorem nextActive_congr (h : ∀ f ∈ L, parked log' f = parked log f) :
    nextActive log' L = nextActive log L := by
  induction L with
  | nil => rfl
  | cons f L ih =>
    rw [nextActive, nextActive, h f List.mem_cons_self,
      ih fun g hg => h g (List.mem_cons_of_mem _ hg)]

theorem Awaited.congr (h : Awaited log L) (hparked : ∀ f ∈ L, parked log' f = parked log f)
    (hawaiter : ∀ f ∈ L, parked log f = false → awaiterOf log' f = awaiterOf log f) :
    Awaited log' L := by
  induction L with
  | nil => trivial
  | cons f L ih =>
    have htail : ∀ g ∈ L, parked log' g = parked log g := fun g hg =>
      hparked g (List.mem_cons_of_mem _ hg)
    refine ⟨fun hf => ?_, ih h.2 htail fun g hg => hawaiter g (List.mem_cons_of_mem _ hg)⟩
    have hf' : parked log f = false := (hparked f List.mem_cons_self) ▸ hf
    rw [hawaiter f List.mem_cons_self hf', nextActive_congr htail]
    exact h.1 hf'

theorem nextActive_remove (hp : parked log p = true) :
    nextActive log (X ++ p :: Y) = nextActive log (X ++ Y) := by
  induction X with
  | nil => simp [nextActive, hp]
  | cons f X ih => simp [nextActive, ih]

/-- A parked frame can be taken out. -/
theorem Awaited.remove (h : Awaited log (X ++ p :: Y)) (hp : parked log p = true) :
    Awaited log (X ++ Y) := by
  induction X with
  | nil => exact h.2
  | cons f X ih =>
    exact ⟨fun hf => (h.1 hf).trans (nextActive_remove hp), ih h.2⟩

end Lists

/-! ### The frames and their pointers -/

/-- All `_caller`s. -/
def Machine.callers (s : Machine) (f : ObjId) : Ptr := (s.obj f).caller

/-- What is known of every awaitable, in the chain or not. -/
structure Sane (s : Machine) : Prop where
  unpausable : ∀ f, (s.obj f).pausable = false → (s.obj f).prev = .null
  new : ∀ f, started s.log f = false → (s.obj f).prev = .null ∧ parked s.log f = false

/-- From `q` the links `next` run through the frames `L` to the task. A frame has a `_prev` if it
    is parked, and where it has one, that is its link. -/
structure Frames (s : Machine) (next : ObjId → Ptr) (q : Ptr) (L : List ObjId) : Prop
    extends Sane s where
  links : Links next .obj .task q L
  nodup : L.Nodup
  prev : ∀ f ∈ L, (s.obj f).prev = .null ∨ (s.obj f).prev = next f
  parked : ∀ f ∈ L, parked s.log f = true → (s.obj f).prev = next f
  started : ∀ f ∈ L, started s.log f = true
  awaited : Awaited s.log L

/-- The chain from `q` is whole: it has every live frame in it. -/
structure Settled (s : Machine) (q : Ptr) (L : List ObjId) : Prop
    extends Frames s s.callers q L where
  live : ∀ f, live s.log f = true → f ∈ L

variable {s t : Machine} {next : ObjId → Ptr} {q : Ptr} {L : List ObjId} {f p d D : ObjId}

/-- A link is never null. -/
theorem links_ne_null {q : Ptr} (h : Links next .obj .task q L) : q ≠ .null := by
  cases L with
  | nil => simp [links_nil.mp h]
  | cons f L => simp [(links_cons.mp h).1]

theorem links_unique {q : Ptr} {L' : List ObjId} (h : Links next .obj .task q L)
    (h' : Links next .obj .task q L') : L = L' :=
  h.unique h' (fun _ _ => Ptr.obj.inj) nofun

theorem links_next_ne_null {q : Ptr} (h : Links next .obj .task q L) (hf : f ∈ L) :
    next f ≠ .null := by
  obtain ⟨X, Y, rfl⟩ := List.append_of_mem hf
  obtain ⟨r, -, -, h⟩ := links_append.mp h
  exact links_ne_null h

theorem Frames.parked_prev (h : Frames s next q L) (hf : f ∈ L)
    (hp : Await.parked s.log f = true) : (s.obj f).prev ≠ .null := by
  rw [h.parked f hf hp]
  exact links_next_ne_null h.links hf

/-- A frame without a `_prev` is not parked. -/
theorem Frames.not_parked (h : Frames s next q L) (hf : f ∈ L) (hp : (s.obj f).prev = .null) :
    Await.parked s.log f = false := by
  rcases hb : Await.parked s.log f with _ | _
  · rfl
  · exact absurd hp (h.parked_prev hf hb)

theorem Frames.tail (h : Frames s next (.obj f) L) :
    ∃ L', L = f :: L' ∧ Frames s next (next f) L' := by
  cases L with
  | nil => simpa using h.links
  | cons g L =>
    obtain ⟨hg, hlinks⟩ := links_cons.mp h.links
    obtain rfl : f = g := by simpa using hg
    exact ⟨L, rfl, h.toSane, hlinks, (List.nodup_cons.mp h.nodup).2,
      fun i hi => h.prev i (List.mem_cons_of_mem _ hi),
      fun i hi => h.parked i (List.mem_cons_of_mem _ hi),
      fun i hi => h.started i (List.mem_cons_of_mem _ hi), h.awaited.2⟩

/-! ### Steps that change no link -/

/-- No pointer of the chain is written, and only quiet events happen. -/
structure Quiet (s t : Machine) : Prop where
  caller : ∀ f, (t.obj f).caller = (s.obj f).caller
  prev : ∀ f, (t.obj f).prev = (s.obj f).prev
  pausable : ∀ f, (t.obj f).pausable = (s.obj f).pausable
  log : ∃ es, t.log = es ++ s.log ∧ ∀ e ∈ es, e.quiet = true

namespace Quiet

theorem log_eq {log es : List Event} (h : ∀ e ∈ es, e.quiet = true) (f : ObjId) :
    started (es ++ log) f = started log f ∧ parked (es ++ log) f = parked log f ∧
      awaiterOf (es ++ log) f = awaiterOf log f := by
  induction es with
  | nil => exact ⟨rfl, rfl, rfl⟩
  | cons e es ih =>
    have he := h e List.mem_cons_self
    rw [List.cons_append, started_quiet he, parked_quiet he, awaiterOf_quiet he]
    exact ih fun e he => h e (List.mem_cons_of_mem _ he)

theorem started (h : Quiet s t) (f : ObjId) : Await.started t.log f = Await.started s.log f := by
  obtain ⟨es, hlog, hes⟩ := h.log
  rw [hlog]
  exact (log_eq hes f).1

theorem parked (h : Quiet s t) (f : ObjId) : Await.parked t.log f = Await.parked s.log f := by
  obtain ⟨es, hlog, hes⟩ := h.log
  rw [hlog]
  exact (log_eq hes f).2.1

theorem awaiterOf (h : Quiet s t) (f : ObjId) :
    Await.awaiterOf t.log f = Await.awaiterOf s.log f := by
  obtain ⟨es, hlog, hes⟩ := h.log
  rw [hlog]
  exact (log_eq hes f).2.2

theorem live (h : Quiet s t) (hf : Await.live t.log f = true) : Await.live s.log f = true := by
  obtain ⟨hstarted, hfin⟩ := live_iff.mp hf
  obtain ⟨es, hlog, -⟩ := h.log
  refine live_iff.mpr ⟨(h.started f) ▸ hstarted, fun hc => hfin ?_⟩
  rw [hlog]
  exact List.mem_append_right _ hc

theorem callers (h : Quiet s t) : t.callers = s.callers := funext h.caller

theorem refl (s : Machine) : Quiet s s :=
  ⟨fun _ => rfl, fun _ => rfl, fun _ => rfl, [], rfl, by simp⟩

theorem trans {r : Machine} (h₁ : Quiet r s) (h₂ : Quiet s t) : Quiet r t := by
  obtain ⟨es₁, hlog₁, hes₁⟩ := h₁.log
  obtain ⟨es₂, hlog₂, hes₂⟩ := h₂.log
  refine ⟨fun f => (h₂.caller f).trans (h₁.caller f), fun f => (h₂.prev f).trans (h₁.prev f),
    fun f => (h₂.pausable f).trans (h₁.pausable f), es₂ ++ es₁, ?_, ?_⟩
  · rw [hlog₂, hlog₁, List.append_assoc]
  · intro e he
    rcases List.mem_append.mp he with he | he
    · exact hes₂ e he
    · exact hes₁ e he

/-- Only the task, the C++ stack and control change. -/
theorem of_eq (hobj : t.obj = s.obj) (hlog : t.log = s.log) : Quiet s t :=
  ⟨fun f => by rw [hobj], fun f => by rw [hobj], fun f => by rw [hobj], [], hlog, by simp⟩

theorem emit (s : Machine) {e : Event} (he : e.quiet = true) : Quiet s (s.emit e) :=
  ⟨fun _ => rfl, fun _ => rfl, fun _ => rfl, [e], rfl, by simpa using he⟩

/-- One record is written and keeps its pointers. -/
theorem of_obj (f : ObjId) (hother : ∀ i, i ≠ f → t.obj i = s.obj i)
    (hcaller : (t.obj f).caller = (s.obj f).caller) (hprev : (t.obj f).prev = (s.obj f).prev)
    (hpausable : (t.obj f).pausable = (s.obj f).pausable)
    (hlog : ∃ es, t.log = es ++ s.log ∧ ∀ e ∈ es, e.quiet = true) : Quiet s t := by
  refine ⟨fun i => ?_, fun i => ?_, fun i => ?_, hlog⟩
  all_goals
    rcases eq_or_ne i f with rfl | hi
    · assumption
    · rw [hother i hi]

theorem finalize (s : Machine) (f : ObjId) : Quiet s (s.finalize f) :=
  of_obj f (fun i hi => by simp [Machine.finalize, Machine.set_obj_ne _ _ hi])
    (by simp [Machine.finalize]) (by simp [Machine.finalize]) (by simp [Machine.finalize])
    ⟨[.finalized f], rfl, by simp [Event.quiet]⟩

theorem setError (s : Machine) (p : Ptr) (e : Error) : Quiet s (s.setError p e) := by
  cases p with
  | obj i =>
    exact of_obj i (fun j hj => by simp [Machine.setError, Machine.set_obj_ne _ _ hj])
      (by simp [Machine.setError]) (by simp [Machine.setError]) (by simp [Machine.setError]) ⟨[], rfl, by simp⟩
  | null | task => exact of_eq rfl rfl

theorem asyncThrow (s : Machine) (f : ObjId) (e : Error) : Quiet s (s.asyncThrow f e) := by
  refine of_obj f (fun i hi => ?_) ?_ ?_ ?_ ⟨[], s.asyncThrow_log f e, by simp⟩
  all_goals
    unfold Machine.asyncThrow
    dsimp only
    split <;> simp [Machine.set_obj_ne, *]

end Quiet

theorem Sane.quiet (h : Sane s) (hq : Quiet s t) : Sane t where
  unpausable f hf := (hq.prev f).trans (h.unpausable f ((hq.pausable f) ▸ hf))
  new f hf := by
    obtain ⟨hprev, hparked⟩ := h.new f ((hq.started f) ▸ hf)
    exact ⟨(hq.prev f).trans hprev, (hq.parked f).trans hparked⟩

theorem Frames.quiet (h : Frames s next q L) (hq : Quiet s t) : Frames t next q L where
  toSane := h.toSane.quiet hq
  links := h.links
  nodup := h.nodup
  prev f hf := (hq.prev f).symm ▸ h.prev f hf
  parked f hf hp := (hq.prev f).trans (h.parked f hf ((hq.parked f) ▸ hp))
  started f hf := (hq.started f).trans (h.started f hf)
  awaited := h.awaited.congr (fun f _ => hq.parked f) fun f _ _ => hq.awaiterOf f

theorem Settled.quiet (h : Settled s q L) (hq : Quiet s t) : Settled t q L where
  toFrames := hq.callers.symm ▸ h.toFrames.quiet hq
  live f hf := h.live f (hq.live hf)

/-- A frame without `is_paused()` has no `_prev`. -/
theorem Sane.prev_null (h : Sane s) (hf : (s.obj f).isPaused = false) : (s.obj f).prev = .null := by
  rcases hp : (s.obj f).pausable with _ | _
  · exact h.unpausable f hp
  · simpa [Obj.isPaused, hp] using hf

theorem Sane.isPaused (h : Sane s) (hf : (s.obj f).prev ≠ .null) : (s.obj f).isPaused = true := by
  rcases hp : (s.obj f).isPaused with _ | _
  · exact absurd (h.prev_null hp) hf
  · rfl

/-! ### Steps that splice the chain -/

theorem Frames.head (h : Frames s next (.obj f) L) : f ∈ L := by
  obtain ⟨L', rfl, -⟩ := h.tail
  exact List.mem_cons_self

/-- A new frame on top of `f`, which has control. -/
theorem Settled.call {g : ObjId} (h : Settled s (.obj f) L)
    (hf : (s.obj f).prev = .null) (hg : Await.started s.log g = false)
    (hcaller : ∀ i, i ≠ g → (t.obj i).caller = (s.obj i).caller) (hgf : (t.obj g).caller = .obj f)
    (hprev : ∀ i, (t.obj i).prev = (s.obj i).prev)
    (hpausable : ∀ i, (t.obj i).pausable = (s.obj i).pausable)
    (hlog : t.log = .called (.obj f) g :: s.log) : Settled t (.obj g) (g :: L) := by
  have hgL : g ∉ L := fun hc => by simp [h.started g hc] at hg
  have hne : ∀ i ∈ L, i ≠ g := fun i hi hc => hgL (hc ▸ hi)
  have hparked : ∀ i, Await.parked t.log i = Await.parked s.log i := fun i => by rw [hlog]; rfl
  have hawaiter : ∀ i, i ≠ g → awaiterOf t.log i = awaiterOf s.log i := fun i hi => by
    simp [hlog, awaiterOf, hi.symm]
  have hnext : ∀ i ∈ L, t.callers i = s.callers i := fun i hi => hcaller i (hne i hi)
  have hactive : nextActive t.log L = .obj f := by
    obtain ⟨L', rfl, -⟩ := h.tail
    simp [nextActive, hparked, h.not_parked List.mem_cons_self hf]
  have hsane : Sane t := by
    refine ⟨fun i hi => (hprev i).trans (h.unpausable i ((hpausable i) ▸ hi)), fun i hi => ?_⟩
    rw [hprev, hparked]
    rw [hlog, started_called, Bool.or_eq_false_iff] at hi
    exact h.new i hi.2
  exact {
    toSane := hsane
    links := ⟨rfl, by rw [show t.callers g = .obj f from hgf]; exact h.links.congr hnext⟩
    nodup := List.nodup_cons.mpr ⟨hgL, h.nodup⟩
    prev := fun i hi => by
      rcases List.mem_cons.mp hi with rfl | hi
      · exact .inl ((hprev i).trans (h.new i hg).1)
      · rw [hprev, hnext i hi]
        exact h.prev i hi
    parked := fun i hi hp => by
      rw [hparked] at hp
      rcases List.mem_cons.mp hi with rfl | hi
      · simp [(h.new i hg).2] at hp
      · rw [hprev, hnext i hi]
        exact h.parked i hi hp
    started := fun i hi => by
      rw [hlog, started_cons]
      rcases List.mem_cons.mp hi with rfl | hi
      · exact .inl ⟨_, rfl⟩
      · exact .inr (h.started i hi)
    awaited := by
      refine ⟨fun _ => ?_, h.awaited.congr (fun i _ => hparked i) fun i hi _ => hawaiter i (hne i hi)⟩
      rw [hactive, hlog]
      simp [awaiterOf]
    live := fun i hi => by
      obtain ⟨hstarted, hfin⟩ := live_iff.mp hi
      rw [hlog, started_cons] at hstarted
      rcases hstarted with ⟨q, hq⟩ | hstarted
      · simp only [Event.called.injEq] at hq
        exact hq.2 ▸ List.mem_cons_self
      · refine List.mem_cons_of_mem _ (h.live i (live_iff.mpr ⟨hstarted, fun hc => hfin ?_⟩))
        rw [hlog]
        exact List.mem_cons_of_mem _ hc }

/-- `p` is awaited by `D` and still lies where it was parked: its link is its `_prev`. -/
structure Reentering (s : Machine) (p D : ObjId) (L : List ObjId) : Prop
    extends Frames s (Function.update s.callers p (s.obj p).prev) (.obj D) L where
  live : ∀ f, Await.live s.log f = true → f ∈ L
  mem : p ∈ L
  isParked : Await.parked s.log p = true
  caller : (s.obj p).caller = .obj D
  awaiter : awaiterOf s.log p = .obj D
  noPrev : (s.obj D).prev = .null
  error : (s.obj p).error.isSet = false

theorem Reentering.of_eq (h : Reentering s p D L) (hobj : t.obj = s.obj) (hlog : t.log = s.log) :
    Reentering t p D L := by
  have hcallers : t.callers = s.callers := (Quiet.of_eq hobj hlog).callers
  have hframes := h.toFrames.quiet (Quiet.of_eq hobj hlog)
  rw [← hcallers, ← hobj] at hframes
  exact ⟨hframes, hlog ▸ h.live, h.mem, hlog ▸ h.isParked, hobj ▸ h.caller, hlog ▸ h.awaiter,
    hobj ▸ h.noPrev, hobj ▸ h.error⟩

/-- A parked frame is awaited again, by `f`, which has control. -/
theorem Settled.recall {g : ObjId} (h : Settled s (.obj f) L)
    (hf : (s.obj f).prev = .null) (hg : Await.parked s.log g = true)
    (hlive : Await.live s.log g = true) (herr : (s.obj g).error.isSet = false)
    (hcaller : ∀ i, i ≠ g → (t.obj i).caller = (s.obj i).caller) (hgf : (t.obj g).caller = .obj f)
    (hprev : ∀ i, (t.obj i).prev = (s.obj i).prev)
    (hpausable : ∀ i, (t.obj i).pausable = (s.obj i).pausable)
    (hgerr : (t.obj g).error = (s.obj g).error)
    (hlog : t.log = .called (.obj f) g :: s.log) : Reentering t g f L := by
  have hgL : g ∈ L := h.live g hlive
  have hparked : ∀ i, Await.parked t.log i = Await.parked s.log i := fun i => by rw [hlog]; rfl
  have hstarted : ∀ i, Await.started t.log i = Await.started s.log i := fun i => by
    rcases eq_or_ne g i with rfl | hi
    · simp [hlog, started_called, (live_iff.mp hlive).1]
    · simp [hlog, started_called, hi]
  have hnext : Function.update t.callers g (t.obj g).prev = s.callers := by
    funext i
    rcases eq_or_ne i g with rfl | hi
    · rw [Function.update_self, hprev]
      exact h.parked i hgL hg
    · rw [Function.update_of_ne hi]
      exact hcaller i hi
  have hsane : Sane t := by
    refine ⟨fun i hi => (hprev i).trans (h.unpausable i ((hpausable i) ▸ hi)), fun i hi => ?_⟩
    rw [hprev, hparked]
    exact h.new i (hstarted i ▸ hi)
  exact {
    toSane := hsane
    links := hnext ▸ h.links
    nodup := h.nodup
    prev := fun i hi => by rw [hprev, hnext]; exact h.prev i hi
    parked := fun i hi hp => by rw [hprev, hnext]; exact h.parked i hi (hparked i ▸ hp)
    started := fun i hi => (hstarted i).trans (h.started i hi)
    awaited := h.awaited.congr (fun i _ => hparked i) fun i hi hp => by
      have hne : g ≠ i := fun hc => by simp [← hc, hg] at hp
      simp [hlog, awaiterOf, hne]
    live := fun i hi => h.live i (live_of_cons hlog (hstarted i) hi)
    mem := hgL
    isParked := (hparked g).trans hg
    caller := hgf
    awaiter := by simp [hlog, awaiterOf]
    noPrev := (hprev f).trans hf
    error := hgerr ▸ herr }

/-- The chain without `p`. -/
theorem Reentering.nodup_splice {X Y : List ObjId} (h : Reentering s p D (X ++ d :: p :: Y)) :
    p ∉ X ++ d :: Y ∧ (X ++ d :: Y).Nodup := by
  have hsplit : X ++ d :: p :: Y = (X ++ [d]) ++ p :: Y := by simp
  rw [show X ++ d :: Y = (X ++ [d]) ++ Y by simp]
  exact List.nodup_cons.mp (List.nodup_middle.mp (hsplit ▸ h.nodup))

theorem mem_splice {X Y : List ObjId} : f ∈ X ++ d :: p :: Y ↔ f = p ∨ f ∈ X ++ d :: Y := by
  simp only [List.mem_append, List.mem_cons]
  tauto

/-- `p` is parked, so the first frame that is not parked stays when `p` is taken out. -/
theorem Reentering.nextActive_splice {X Y : List ObjId} {log : List Event}
    (h : Reentering s p D (X ++ d :: p :: Y))
    (hparked : ∀ f, f ≠ p → Await.parked log f = Await.parked s.log f) :
    nextActive log (X ++ d :: Y) = .obj D := by
  have hsplit : X ++ d :: p :: Y = (X ++ [d]) ++ p :: Y := by simp
  have hne : ∀ f ∈ X ++ d :: Y, f ≠ p := fun f hf hc => h.nodup_splice.1 (hc ▸ hf)
  have hD : nextActive s.log (X ++ d :: p :: Y) = .obj D := by
    obtain ⟨L', hL, -⟩ := h.toFrames.tail
    simp [hL, nextActive, h.not_parked h.head h.noPrev]
  rw [nextActive_congr fun f hf => hparked f (hne f hf), ← hD, hsplit, nextActive_remove h.isParked]
  simp

theorem Reentering.sane_splice {X Y : List ObjId} (h : Reentering s p D (X ++ d :: p :: Y))
    (hprev : ∀ f, f ≠ d → f ≠ p → (t.obj f).prev = (s.obj f).prev) (hpp : (t.obj p).prev = .null)
    (hd : (t.obj d).prev = .null ∨ (s.obj d).pausable = true)
    (hpausable : ∀ f, (t.obj f).pausable = (s.obj f).pausable)
    (hparked : ∀ f, f ≠ p → Await.parked t.log f = Await.parked s.log f)
    (hstarted : ∀ f, Await.started t.log f = Await.started s.log f) : Sane t := by
  have hdmem : d ∈ X ++ d :: Y := by simp
  refine ⟨fun f hf => ?_, fun f hf => ?_⟩
  · have hf' : (s.obj f).pausable = false := hpausable f ▸ hf
    rcases eq_or_ne f p with rfl | hfp
    · exact hpp
    rcases eq_or_ne f d with rfl | hfd
    · exact hd.resolve_right (by simp [hf'])
    · exact (hprev f hfd hfp).trans (h.unpausable f hf')
  · rw [hstarted] at hf
    have hL : f ∉ X ++ d :: p :: Y := fun hc => by simp [h.started f hc] at hf
    have hfp : f ≠ p := fun hc => hL (mem_splice.mpr (.inl hc))
    have hfd : f ≠ d := fun hc => hL (mem_splice.mpr (.inr (hc ▸ hdmem)))
    rw [hprev f hfd hfp, hparked f hfp]
    exact h.new f hf

/-- `p` is taken out from below `d` and put on top of its new awaiter. -/
theorem Reentering.splice {X Y : List ObjId} (h : Reentering s p D (X ++ d :: p :: Y))
    (hcaller : ∀ f, f ≠ d → (t.obj f).caller = (s.obj f).caller)
    (hd : (t.obj d).caller = (s.obj p).prev)
    (hprev : ∀ f, f ≠ d → f ≠ p → (t.obj f).prev = (s.obj f).prev) (hpp : (t.obj p).prev = .null)
    (hdp : (t.obj d).prev = .null ∧ (s.obj d).prev = .null ∨
      (s.obj d).pausable = true ∧ (t.obj d).prev = (s.obj p).prev)
    (hpausable : ∀ f, (t.obj f).pausable = (s.obj f).pausable)
    (hlog : t.log = .reentered p :: s.log) :
    Settled t (.obj p) (p :: (X ++ d :: Y)) := by
  have hsplit : X ++ d :: p :: Y = (X ++ [d]) ++ p :: Y := by simp
  have hnodup := h.nodup_splice
  have hne : ∀ f ∈ X ++ d :: Y, f ≠ p := fun f hf hc => hnodup.1 (hc ▸ hf)
  have hdmem : d ∈ X ++ d :: Y := by simp
  have hpd : p ≠ d := (hne d hdmem).symm
  have hparked : ∀ f, f ≠ p → Await.parked t.log f = Await.parked s.log f := fun f hf => by
    simp [hlog, Await.parked, hf.symm]
  have hawaiter : ∀ f, awaiterOf t.log f = awaiterOf s.log f := fun f => by rw [hlog]; rfl
  have hstarted : ∀ f, Await.started t.log f = Await.started s.log f := fun f => by
    simp [hlog, Await.started]
  have hnext : ∀ f ∈ X ++ d :: Y, f ≠ d →
      t.callers f = Function.update s.callers p (s.obj p).prev f := fun f hf hfd => by
    rw [Function.update_of_ne (hne f hf)]
    exact hcaller f hfd
  have hnextd : t.callers d = Function.update s.callers p (s.obj p).prev p := by
    rw [Function.update_self]
    exact hd
  have hactive := h.nextActive_splice hparked
  have hsane := h.sane_splice hprev hpp (hdp.imp And.left And.left) hpausable hparked hstarted
  exact {
    toSane := hsane
    links := by
      refine ⟨rfl, ?_⟩
      rw [show t.callers p = .obj D from (hcaller p hpd).trans h.caller]
      exact h.links.unlink hnodup.2 hnext hnextd
    nodup := List.nodup_cons.mpr hnodup
    prev := fun f hf => by
      rcases List.mem_cons.mp hf with rfl | hf
      · exact .inl hpp
      rcases eq_or_ne f d with rfl | hfd
      · rcases hdp with hdp | hdp
        · exact .inl hdp.1
        · exact .inr (hdp.2.trans hd.symm)
      · rw [hprev f hfd (hne f hf), hnext f hf hfd]
        exact h.prev f (mem_splice.mpr (.inr hf))
    parked := fun f hf hp => by
      rcases List.mem_cons.mp hf with rfl | hf
      · simp [hlog, Await.parked] at hp
      rw [hparked f (hne f hf)] at hp
      rcases eq_or_ne f d with rfl | hfd
      · rcases hdp with hdp | hdp
        · exact absurd hdp.2 (h.parked_prev (mem_splice.mpr (.inr hf)) hp)
        · exact hdp.2.trans hd.symm
      · rw [hprev f hfd (hne f hf), hnext f hf hfd]
        exact h.parked f (mem_splice.mpr (.inr hf)) hp
    started := fun f hf => (hstarted f).trans (h.started f (mem_splice.mpr (List.mem_cons.mp hf)))
    awaited := by
      refine ⟨fun _ => ?_, ?_⟩
      · rw [hactive, hawaiter, h.awaiter]
      · have hrem : Awaited s.log (X ++ d :: Y) := by
          simpa using (hsplit ▸ h.awaited : Awaited s.log ((X ++ [d]) ++ p :: Y)).remove h.isParked
        exact hrem.congr (fun f hf => hparked f (hne f hf)) fun f _ _ => hawaiter f
    live := fun f hf =>
      List.mem_cons.mpr (mem_splice.mp (h.live f (live_of_cons hlog (hstarted f) hf))) }

/-- `f` changes places with its caller, which is not paused. -/
theorem Settled.pause {k : ObjId} (h : Settled s (.obj f) L)
    (hk : (s.obj f).caller = .obj k) (hkprev : (s.obj k).prev = .null)
    (hcaller : ∀ i, i ≠ f → i ≠ k → (t.obj i).caller = (s.obj i).caller)
    (hkf : (t.obj k).caller = .obj f) (hfk : (t.obj f).caller = (s.obj k).caller)
    (hprev : ∀ i, i ≠ f → (t.obj i).prev = (s.obj i).prev)
    (hfprev : (t.obj f).prev = (s.obj k).caller) (hf : (s.obj f).pausable = true)
    (hpausable : ∀ i, (t.obj i).pausable = (s.obj i).pausable)
    (hlog : t.log = .paused f :: s.log) :
    ∃ L', Settled t (.obj k) L' := by
  obtain ⟨L₁, rfl, htail⟩ := h.tail
  rw [show s.callers f = .obj k from hk] at htail
  obtain ⟨R, rfl, hR⟩ := htail.tail
  have hfkR := h.nodup
  simp only [List.nodup_cons, List.mem_cons, not_or] at hfkR
  obtain ⟨⟨hne, hfR⟩, hkR, hRnodup⟩ := hfkR
  have hneR : ∀ i ∈ R, i ≠ f ∧ i ≠ k := fun i hi => ⟨fun hc => hfR (hc ▸ hi), fun hc => hkR (hc ▸ hi)⟩
  have hmem : ∀ i, i ∈ k :: f :: R ↔ i ∈ f :: k :: R := by
    intro i
    simp only [List.mem_cons]
    tauto
  have hparked : ∀ i, i ≠ f → Await.parked t.log i = Await.parked s.log i := fun i hi => by
    simp [hlog, Await.parked, hi.symm]
  have hparkedf : Await.parked t.log f = true := by simp [hlog, Await.parked]
  have hawaiter : ∀ i, awaiterOf t.log i = awaiterOf s.log i := fun i => by rw [hlog]; rfl
  have hstarted : ∀ i, Await.started t.log i = Await.started s.log i := fun i => by
    simp [hlog, Await.started]
  have hnext : ∀ i ∈ R, t.callers i = s.callers i := fun i hi => hcaller i (hneR i hi).1 (hneR i hi).2
  have hkparked : Await.parked s.log k = false :=
    htail.not_parked List.mem_cons_self hkprev
  have hsane : Sane t := by
    refine ⟨fun i hi => ?_, fun i hi => ?_⟩
    · rw [hpausable] at hi
      rcases eq_or_ne i f with rfl | hif
      · simp [hf] at hi
      · exact (hprev i hif).trans (h.unpausable i hi)
    · rw [hstarted] at hi
      have hif : i ≠ f := fun hc => by simp [hc, h.started f h.head] at hi
      rw [hprev i hif, hparked i hif]
      exact h.new i hi
  refine ⟨k :: f :: R, ?_⟩
  exact {
    toSane := hsane
    links := by
      refine ⟨rfl, hkf, ?_⟩
      rw [show t.callers f = s.callers k from hfk]
      exact hR.links.congr hnext
    nodup := by
      simp only [List.nodup_cons, List.mem_cons, not_or]
      exact ⟨⟨Ne.symm hne, hkR⟩, hfR, hRnodup⟩
    prev := fun i hi => by
      rcases eq_or_ne i f with rfl | hif
      · exact .inr (hfprev.trans hfk.symm)
      rcases eq_or_ne i k with rfl | hik
      · exact .inl ((hprev i hif).trans hkprev)
      · have h' := h.prev i ((hmem i).mp hi)
        rw [hprev i hif]
        exact h'.imp_right fun hc => hc.trans (hcaller i hif hik).symm
    parked := fun i hi hp => by
      rcases eq_or_ne i f with rfl | hif
      · exact hfprev.trans hfk.symm
      rw [hparked i hif] at hp
      rcases eq_or_ne i k with rfl | hik
      · simp [hkparked] at hp
      · exact (hprev i hif).trans ((h.parked i ((hmem i).mp hi) hp).trans
          (hcaller i hif hik).symm)
    started := fun i hi => (hstarted i).trans (h.started i ((hmem i).mp hi))
    awaited := by
      refine ⟨fun _ => ?_, fun hc => by simp [hparkedf] at hc, ?_⟩
      · rw [hawaiter, nextActive, if_pos hparkedf,
          nextActive_congr fun i hi => hparked i (hneR i hi).1]
        exact htail.awaited.1 hkparked
      · exact hR.awaited.congr (fun i hi => hparked i (hneR i hi).1) fun i _ _ => hawaiter i
    live := fun i hi => (hmem i).mpr (h.live i (live_of_cons hlog (hstarted i) hi)) }

/-- The frame that has control was awaited by its caller, unless that one is parked. -/
theorem Settled.caller_awaits {k : ObjId} (h : Settled s (.obj f) L) (hf : (s.obj f).prev = .null)
    (hk : (s.obj f).caller = .obj k) (hkprev : (s.obj k).prev = .null) :
    awaiterOf s.log f = .obj k := by
  have hfp := h.not_parked h.head hf
  obtain ⟨L₁, rfl, htail⟩ := h.tail
  rw [show s.callers f = .obj k from hk] at htail
  have hkp := htail.not_parked htail.head hkprev
  obtain ⟨R, rfl, -⟩ := htail.tail
  rw [h.awaited.1 hfp]
  simp [nextActive, hkp]

end Jinx.Await
