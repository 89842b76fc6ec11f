import Jinx.Await.Program

/-! The discipline of a run of non-pausable awaitables.

    `Nest` reads a log from its first event on and knows which frames are started and what the
    innermost one is about to do. The meaning of a program obeys it (`Code.nests`), and a log that
    it reads to the end is `Disciplined`: every frame is finalized once, before its awaiter's next
    callback, and what it raises is the next thing its awaiter hears of. -/

namespace Jinx.Await

/-- What the innermost frame is about to do. -/
inductive Mode where
  /-- its next callback is due -/
  | due
  | polled
  | handling (e : Error)
  | raised (e : Error)
  /-- its callee has raised `e` and is finalized -/
  | failed (e : Error)
  /-- the task has exited -/
  | over
  deriving DecidableEq, Repr

/-- The frames that are started and not finalized, the innermost first, and every frame that was
    ever started. At first the task awaits its entry. -/
structure Nest where
  stack : List ObjId := []
  mode : Mode := .polled
  started : List ObjId := []

/-- Who awaits the next callee. -/
def awaiter : List ObjId → Ptr
  | [] => .task
  | f :: _ => .obj f

namespace Nest

/-- A frame is started once, by the innermost frame, and until it is finalized it is the innermost
    one; what it raises goes to its awaiter at once. -/
def step (s : Nest) : Event → Option Nest
  | .called p g =>
    match s.mode with
    | .polled | .handling _ =>
      if g ∉ s.started ∧ p = awaiter s.stack then some ⟨g :: s.stack, .due, g :: s.started⟩ else none
    | _ => none
  | .polled f _ =>
    if s.stack.head? = some f ∧ s.mode = .due then some { s with mode := .polled } else none
  | .waited f =>
    if s.stack.head? = some f ∧ s.mode = .polled then some { s with mode := .due } else none
  | .handled f e =>
    if s.stack.head? = some f ∧ (s.mode = .polled ∨ s.mode = .failed e)
    then some { s with mode := .handling e } else none
  | .raised f e =>
    if s.stack.head? = some f ∧ s.mode = .handling e then some { s with mode := .raised e } else none
  | .finalized f =>
    match s.stack, s.mode with
    | k :: rest, .polled => if k = f then some ⟨rest, .due, s.started⟩ else none
    | k :: rest, .handling _ => if k = f then some ⟨rest, .due, s.started⟩ else none
    | k :: rest, .raised e => if k = f then some ⟨rest, .failed e, s.started⟩ else none
    | _, _ => none
  | .exited e =>
    if s.stack = [] ∧ (s.mode = .due ∧ e.isSet = false ∨ s.mode = .failed e)
    then some { s with mode := .over } else none
  | _ => none

abbrev read : Nest → List Event → Option Nest := Runs.exec step

end Nest

/-! ### The meaning of a program obeys the discipline -/

/-- The mode in which a finished callee leaves its awaiter. -/
def Outcome.mode (o : Outcome) : Mode := o.error.elim .due .failed

/-- From a state whose frames are all older than `n`, `o` can be read and leaves `rest`. -/
def Nests (o : Outcome) (stack rest : List ObjId) (mode : Mode) (n : ObjId) : Prop :=
  ∀ started : List ObjId, (∀ g ∈ started, g < n) →
    ∃ started', (∀ g ∈ started', g < o.fresh) ∧
      Nest.read ⟨stack, mode, started⟩ o.events = some ⟨rest, o.mode, started'⟩

variable {f n : ObjId} {stack rest : List ObjId} {mode mode' : Mode} {o : Outcome}

theorem Nests.after (h : Nests o stack rest mode' n) (es : List Event)
    (hes : ∀ started, Nest.read ⟨stack, mode, started⟩ es = some ⟨stack, mode', started⟩) :
    Nests (o.after es) stack rest mode n := by
  intro started hlt
  obtain ⟨started', hlt', hread⟩ := h started hlt
  exact ⟨started', hlt', Runs.exec_trans (hes started) hread⟩

theorem awaited_nests {callee next : Code} {g : Error → Handler}
    (hcallee : ∀ f n rest r, Nests (callee.eval f r n) (f :: rest) rest .due n)
    (hnext : ∀ f n rest r, Nests (next.eval f r n) (f :: rest) rest .due n)
    (hg : ∀ e f n rest, Nests ((g e).eval e f n) (f :: rest) rest (.handling e) n)
    (hmode : mode = .polled ∨ ∃ e, mode = .handling e) :
    Nests (awaited callee next g f n) (f :: rest) rest mode n := by
  intro started hlt
  have hcalled : Nest.step ⟨f :: rest, mode, started⟩ (.called (.obj f) n) =
      some ⟨n :: f :: rest, .due, n :: started⟩ := by
    have hn : n ∉ started := fun h => Nat.lt_irrefl n (hlt n h)
    rcases hmode with rfl | ⟨e, rfl⟩ <;> simp [Nest.step, hn, awaiter]
  have hlt' : ∀ g ∈ n :: started, g < n + 1 := by
    intro g hg
    rcases List.mem_cons.mp hg with rfl | hg
    · exact Nat.lt_succ_self _
    · exact Nat.lt_succ_of_lt (hlt g hg)
  obtain ⟨started', hstarted', hread⟩ := hcallee n (n + 1) (f :: rest) .start (n :: started) hlt'
  unfold awaited
  dsimp only
  generalize callee.eval n .start (n + 1) = o at hstarted' hread ⊢
  have hhead : Nest.read ⟨f :: rest, mode, started⟩ (.called (.obj f) n :: o.events) =
      some ⟨f :: rest, o.mode, started'⟩ := Runs.exec_cons.mpr ⟨_, hcalled, hread⟩
  cases herr : o.error with
  | none =>
    obtain ⟨started'', hlt'', hread'⟩ := hnext f o.fresh rest .later started' hstarted'
    rw [show o.mode = .due by simp [Outcome.mode, herr]] at hhead
    exact ⟨started'', hlt'', Runs.exec_trans hhead hread'⟩
  | some e =>
    have hafter : Nests (((g e).eval e f o.fresh).after [.handled f e]) (f :: rest) rest
        (.failed e) o.fresh :=
      (hg e f o.fresh rest).after [.handled f e] fun started => by
        simp [Nest.read, Runs.exec, Nest.step]
    obtain ⟨started'', hlt'', hread'⟩ := hafter started' hstarted'
    rw [show o.mode = .failed e by simp [Outcome.mode, herr]] at hhead
    exact ⟨started'', hlt'', Runs.exec_trans hhead hread'⟩

mutual

theorem Code.nests : ∀ (c : Code) (f n : ObjId) (rest : List ObjId) (r : Routine),
    Nests (c.eval f r n) (f :: rest) rest .due n
  | .ret, f, n, rest, r => fun started hlt => by
    refine ⟨started, hlt, ?_⟩
    simp [Code.eval, Nest.read, Runs.exec, Nest.step, Outcome.mode]
  | .throw e he h, f, n, rest, r => (Handler.nests h e f n rest).after _ fun started => by
    simp [Nest.read, Runs.exec, Nest.step]
  | .await callee next g, f, n, rest, r => by
    rw [Code.eval_await]
    exact (awaited_nests (Code.nests callee) (Code.nests next) (fun e => Handler.nests (g e) e)
      (.inl rfl)).after _ fun started => by simp [Nest.read, Runs.exec, Nest.step]
  | .wait w next, f, n, rest, r => (Code.nests next f n rest r).after _ fun started => by
    simp [Nest.read, Runs.exec, Nest.step]

theorem Handler.nests : ∀ (h : Handler) (e : Error) (f n : ObjId) (rest : List ObjId),
    Nests (h.eval e f n) (f :: rest) rest (.handling e) n
  | .propagate, e, f, n, rest => fun started hlt => by
    refine ⟨started, hlt, ?_⟩
    simp [Handler.eval, Nest.read, Runs.exec, Nest.step, Outcome.mode]
  | .ret, e, f, n, rest => fun started hlt => by
    refine ⟨started, hlt, ?_⟩
    simp [Handler.eval, Nest.read, Runs.exec, Nest.step, Outcome.mode]
  | .await callee next g, e, f, n, rest => by
    rw [Handler.eval_await]
    exact awaited_nests (Code.nests callee) (Code.nests next) (fun e => Handler.nests (g e) e)
      (.inr ⟨e, rfl⟩)

end

/-! ### What the discipline means -/

/-- A callback of the user: a poll or `handle_error`. -/
def Event.callbackOf (f : ObjId) : Event → Prop
  | .polled k _ => k = f
  | .handled k _ => k = f
  | _ => False

/-- How the awaiter hears of an error: by its `handle_error`, or by the exit of the task. -/
def Event.delivery (e : Error) : Ptr → Event
  | .obj k => .handled k e
  | _ => .exited e

/-- A log, its first event first, in which every started frame is finalized exactly once, and that
    before the next callback of its awaiter; what a frame raises is delivered to its awaiter at
    once. -/
structure Disciplined (log : List Event) : Prop where
  once : ∀ p g, .called p g ∈ log → log.count (.finalized g) = 1
  before : ∀ (f g : ObjId) (l₁ l₂ l₃ : List Event) (ev : Event),
    log = l₁ ++ .called (.obj f) g :: l₂ ++ ev :: l₃ → ev.callbackOf f → .finalized g ∈ l₂
  delivered : ∀ (g : ObjId) (e : Error) (l₁ l₂ : List Event), log = l₁ ++ .raised g e :: l₂ →
    ∃ p l₃, .called p g ∈ l₁ ∧ l₂ = .finalized g :: .delivery e p :: l₃

namespace Nest

/-- What the state knows about the events read so far. -/
structure Knows (s : Nest) (log : List Event) : Prop where
  nodup : s.stack.Nodup
  started : ∀ g, g ∈ s.started ↔ ∃ p, .called p g ∈ log
  mem : ∀ g ∈ s.stack, g ∈ s.started
  count : ∀ g, log.count (.finalized g) + s.stack.count g = if g ∈ s.started then 1 else 0
  awaits : ∀ pre g rest, s.stack = pre ++ g :: rest → .called (awaiter rest) g ∈ log

theorem Knows.init : Knows {} [] :=
  ⟨List.nodup_nil, by simp, by simp, by simp, by simp⟩

/-- An event that starts and finalizes no frame. -/
theorem Knows.frame {s t : Nest} {log : List Event} {ev : Event} (h : Knows s log)
    (hstack : t.stack = s.stack) (hstarted : t.started = s.started)
    (hcalled : ∀ p g, ev ≠ .called p g) (hfinalized : ∀ g, ev ≠ .finalized g) :
    Knows t (log ++ [ev]) where
  nodup := hstack ▸ h.nodup
  started g := by
    rw [hstarted, h.started]
    simp [fun p => (hcalled p g).symm]
  mem := by rw [hstack, hstarted]; exact h.mem
  count g := by
    rw [List.count_append, hstack, hstarted, List.count_singleton, if_neg (by simpa using hfinalized g)]
    exact h.count g
  awaits pre g rest hs := List.mem_append_left _ (h.awaits pre g rest (hstack ▸ hs))

theorem Knows.call {s : Nest} {log : List Event} {p : Ptr} {g : ObjId} {mode : Mode}
    (h : Knows s log) (hg : g ∉ s.started) (hp : p = awaiter s.stack) :
    Knows ⟨g :: s.stack, mode, g :: s.started⟩ (log ++ [.called p g]) where
  nodup := List.nodup_cons.mpr ⟨fun hc => hg (h.mem g hc), h.nodup⟩
  started k := by
    rw [List.mem_cons, h.started]
    constructor
    · rintro (rfl | ⟨q, hq⟩)
      · exact ⟨p, by simp⟩
      · exact ⟨q, List.mem_append_left _ hq⟩
    · rintro ⟨q, hq⟩
      rcases List.mem_append.mp hq with hq | hq
      · exact .inr ⟨q, hq⟩
      · exact .inl (by simp at hq; exact hq.2)
  mem k hk := by
    rcases List.mem_cons.mp hk with rfl | hk
    · exact List.mem_cons_self
    · exact List.mem_cons_of_mem _ (h.mem k hk)
  count k := by
    have hcount := h.count k
    by_cases hk : g = k
    · subst hk
      have hnot : s.stack.count g = 0 := List.count_eq_zero.mpr fun hc => hg (h.mem g hc)
      rw [if_neg hg, hnot] at hcount
      simp [hnot]
      simpa using hcount
    · simpa [List.count_cons_of_ne hk, Ne.symm hk] using hcount
  awaits pre k rest hs := by
    cases pre with
    | nil =>
      obtain ⟨rfl, rfl⟩ : g = k ∧ s.stack = rest := by simpa using hs
      simp [hp]
    | cons a pre =>
      have hs' : s.stack = pre ++ k :: rest := (List.cons_eq_cons.mp hs).2
      exact List.mem_append_left _ (h.awaits pre k rest hs')

theorem Knows.finalize {s : Nest} {log : List Event} {g : ObjId} {rest : List ObjId} {mode : Mode}
    (h : Knows s log) (hs : s.stack = g :: rest) :
    Knows ⟨rest, mode, s.started⟩ (log ++ [.finalized g]) where
  nodup := (List.nodup_cons.mp (hs ▸ h.nodup)).2
  started k := by
    rw [h.started]
    simp
  mem k hk := h.mem k (by rw [hs]; exact List.mem_cons_of_mem _ hk)
  count k := by
    have hcount := h.count k
    rw [hs] at hcount
    by_cases hk : g = k
    · subst hk
      rw [List.count_cons_self] at hcount
      rw [List.count_append, List.count_singleton_self, Nat.add_assoc, Nat.add_comm 1]
      exact hcount
    · rw [List.count_cons_of_ne hk] at hcount
      simpa [hk] using hcount
  awaits pre k tail hr := List.mem_append_left _
    (h.awaits (g :: pre) k tail (by rw [hs, List.cons_append]; exact congrArg _ hr))

theorem Knows.step {s t : Nest} {log : List Event} {ev : Event} (h : Knows s log)
    (hstep : s.step ev = some t) : Knows t (log ++ [ev]) := by
  cases ev with
  | called p g =>
    have hcall : ∀ m, (if g ∉ s.started ∧ p = awaiter s.stack then
        some (⟨g :: s.stack, m, g :: s.started⟩ : Nest) else none) = some t →
        Knows t (log ++ [.called p g]) := by
      intro m ht
      obtain ⟨⟨hg, hp⟩, rfl⟩ := by simpa using ht
      exact h.call hg hp
    cases hm : s.mode <;> simp only [Nest.step, hm] at hstep
    all_goals first | exact hcall _ hstep | cases hstep
  | polled f r | waited f | handled f e | raised f e | exited e =>
    obtain ⟨-, rfl⟩ := by simpa [Nest.step] using hstep
    exact h.frame rfl rfl (by simp) (by simp)
  | finalized f =>
    simp only [Nest.step] at hstep
    split at hstep
    all_goals first
      | contradiction
      | obtain ⟨rfl, rfl⟩ := by simpa using hstep
        exact h.finalize (by assumption)
  | paused f | reentered f => simp [Nest.step] at hstep

theorem Knows.read {es : List Event} {s t : Nest} {log : List Event} (h : Knows s log)
    (hread : s.read es = some t) : Knows t (log ++ es) := by
  induction es generalizing s log with
  | nil =>
    obtain rfl : s = t := by simpa using hread
    simpa using h
  | cons ev es ih =>
    obtain ⟨m, hm, hread⟩ := Runs.exec_cons.mp hread
    simpa using ih (h.step hm) hread

/-- A frame that is not finalized stays, with everything below it. -/
theorem stays {g : ObjId} {rest : List ObjId} {es : List Event} (hg : .finalized g ∉ es)
    {s t : Nest} (hread : s.read es = some t) (hs : ∃ pre, s.stack = pre ++ g :: rest) :
    ∃ pre, t.stack = pre ++ g :: rest := by
  induction es generalizing s with
  | nil =>
    obtain rfl : s = t := by simpa using hread
    exact hs
  | cons ev es ih =>
    obtain ⟨m, hm, hread⟩ := Runs.exec_cons.mp hread
    refine ih (fun hc => hg (List.mem_cons_of_mem _ hc)) hread ?_
    obtain ⟨pre, hs⟩ := hs
    cases ev with
    | called p k =>
      refine ⟨k :: pre, ?_⟩
      cases hmode : s.mode <;> simp [Nest.step, hmode] at hm
      all_goals simp [← hm.2, hs]
    | polled f r | waited f | handled f e | raised f e | exited e =>
      obtain ⟨-, rfl⟩ := by simpa [Nest.step] using hm
      exact ⟨pre, hs⟩
    | finalized f =>
      have hf : g ≠ f := fun hc => hg (by simp [hc])
      have hpop : ∀ k tail, s.stack = k :: tail → k = f → ∃ pre, tail = pre ++ g :: rest := by
        rintro k tail hk rfl
        cases pre with
        | nil => exact absurd (List.cons_eq_cons.mp (hs.symm.trans hk)).1 hf
        | cons a pre => exact ⟨pre, (List.cons_eq_cons.mp (hk.symm.trans hs)).2⟩
      simp only [Nest.step] at hm
      split at hm
      all_goals first
        | contradiction
        | obtain ⟨hk, rfl⟩ := by simpa using hm
          exact hpop _ _ (by assumption) hk
    | paused f | reentered f => simp [Nest.step] at hm

/-- After an error was raised, its frame is finalized and its awaiter hears of it. -/
theorem raised_delivered {s t : Nest} {log l : List Event} {g : ObjId} {e : Error}
    (hs : Knows s log) (hread : s.read (.raised g e :: l) = some t) (ht : t.mode = .over) :
    ∃ p l', .called p g ∈ log ∧ l = .finalized g :: .delivery e p :: l' := by
  obtain ⟨m, hm, hread⟩ := Runs.exec_cons.mp hread
  obtain ⟨⟨hhead, -⟩, rfl⟩ := by simpa [Nest.step] using hm
  obtain ⟨rest, hstack⟩ : ∃ rest, s.stack = g :: rest := List.head?_eq_some_iff.mp hhead
  cases l with
  | nil =>
    obtain rfl := by simpa using hread
    simp at ht
  | cons ev l =>
    obtain ⟨m, hm, hread⟩ := Runs.exec_cons.mp hread
    obtain ⟨rfl, rfl⟩ : ev = .finalized g ∧ m = ⟨rest, .failed e, s.started⟩ := by
      cases ev <;> simp [Nest.step, hstack] at hm
      exact ⟨by rw [hm.1], hm.2.symm⟩
    cases l with
    | nil =>
      obtain rfl := by simpa using hread
      simp at ht
    | cons ev l =>
      obtain ⟨m, hm, -⟩ := Runs.exec_cons.mp hread
      refine ⟨awaiter rest, l, hs.awaits [] g rest hstack, ?_⟩
      cases ev <;> simp [Nest.step] at hm
      · obtain ⟨⟨hhead, rfl⟩, -⟩ := hm
        obtain ⟨tail, rfl⟩ := List.head?_eq_some_iff.mp hhead
        rfl
      · obtain ⟨⟨rfl, rfl⟩, -⟩ := hm
        rfl

theorem disciplined {log : List Event} {t : Nest} (hread : Nest.read {} log = some t)
    (hstack : t.stack = []) (hmode : t.mode = .over) : Disciplined log where
  once p g hg := by
    have h := Knows.init.read hread
    have hcount := h.count g
    rw [if_pos ((h.started g).mpr ⟨p, hg⟩), hstack] at hcount
    simpa using hcount
  before f g l₁ l₂ l₃ ev hlog hev := by
    by_contra hg
    subst hlog
    rw [List.append_assoc] at hread
    obtain ⟨s, hs, hread⟩ := Runs.exec_split hread
    obtain ⟨m, hm, hread⟩ := Runs.exec_cons.mp hread
    obtain ⟨b, hb, hread⟩ := Runs.exec_split hread
    obtain ⟨c, hc, -⟩ := Runs.exec_cons.mp hread
    have hknows : Knows b (l₁ ++ [.called (.obj f) g] ++ l₂) := ((Knows.init.read hs).step hm).read hb
    -- the callee is on top of its awaiter, and nothing finalizes it before the callback
    obtain ⟨rest, hrest⟩ : ∃ rest, m.stack = g :: f :: rest := by
      have hawaiter : .obj f = awaiter s.stack ∧ m.stack = g :: s.stack := by
        cases hmode : s.mode <;> simp [Nest.step, hmode] at hm
        all_goals exact ⟨hm.1.2, by rw [← hm.2]⟩
      cases htail : s.stack with
      | nil => simp [htail, awaiter] at hawaiter
      | cons k tail =>
        obtain ⟨hk, hstack⟩ := hawaiter
        rw [htail] at hk hstack
        obtain rfl : f = k := by simpa [awaiter] using hk
        exact ⟨tail, hstack⟩
    obtain ⟨pre, hpre⟩ := stays hg hb ⟨[], hrest⟩
    have hhead : b.stack.head? = some f := by
      cases ev <;> simp [Event.callbackOf] at hev
      all_goals subst hev; simp [Nest.step] at hc; exact hc.1.1
    have hnodup := hpre ▸ hknows.nodup
    obtain ⟨tail, htail⟩ := List.head?_eq_some_iff.mp (hpre ▸ hhead)
    cases pre with
    | nil =>
      obtain rfl : g = f := (List.cons_eq_cons.mp htail).1
      simp at hnodup
    | cons a pre =>
      obtain rfl : a = f := (List.cons_eq_cons.mp htail).1
      simp at hnodup
  delivered g e l₁ l₂ hlog := by
    subst hlog
    obtain ⟨s, hs, hread⟩ := Runs.exec_split hread
    have hknows : Knows s l₁ := Knows.init.read hs
    exact raised_delivered hknows hread hmode

end Nest

end Jinx.Await
