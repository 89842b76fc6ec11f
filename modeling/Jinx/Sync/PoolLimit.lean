import Jinx.Sync.PoolCount
import Mathlib.Data.Int.Order.Lemmas

/-! What a `BufferPool` promises to those who ask for buffers.

    A request that was refused is served by `release` only. The second loop of `reconfigure` puts new
    buffers in the reserve without a look at the requests, and a higher limit is not tried out for
    them either: a request can then wait while there is a buffer for it. `allocate` asks the provider
    as long as the count does not exceed the limit, so that it can exceed it by one afterwards. -/

namespace Jinx.Sync

open Runs

/-- What the memory provider answers to the one who asks for a buffer. -/
def PoolOp.mem : PoolOp → Bool
  | .allocate mem => mem
  | .request _ mem => mem
  | .run _ mem => mem
  | _ => false

/-- The memory provider does not fail. -/
def PoolOp.Provided : PoolOp → Prop
  | .allocate mem => mem = true
  | .request _ mem => mem = true
  | .run _ mem => mem = true
  | .reconfigure reserve _ grants => reserve ≤ grants
  | _ => True

def PoolOp.Reconfigures : PoolOp → Prop
  | .reconfigure _ _ _ => True
  | _ => False

namespace BufferPool

variable {s t u : BufferPool} {i : Id} {m : MemId} {mem : Bool} {a : PoolOp}

/-! ### No request waits for nothing -/

/-- Where a request waits, there is no buffer in the reserve, and the limit permits no other one. -/
def NoneLeft (s : BufferPool) : Prop :=
  s.pendingRequests ≠ [] → s.reserveBuffers = [] ∧ s.limit.toNat < s.activeBuffers

/-- `reconfigure` makes no buffer available while a request waits. -/
def NothingNew (s : BufferPool) : PoolOp → Prop
  | .reconfigure reserve limit _ =>
    s.pendingRequests ≠ [] → reserve = 0 ∧ limit.toNat < s.activeBuffers
  | _ => True

instance (s : BufferPool) : ∀ a, Decidable (s.NothingNew a)
  | .reconfigure reserve limit _ => inferInstanceAs (Decidable
      (s.pendingRequests ≠ [] → reserve = 0 ∧ limit.toNat < s.activeBuffers))
  | .allocate _ | .copy _ | .drop _ | .request _ _ | .run _ _ | .cancel _ | .take _ => .isTrue trivial

theorem NoneLeft.congr (h : s.NoneLeft) (hp : t.pendingRequests ≠ [] → s.pendingRequests ≠ [])
    (hreserve : t.reserveBuffers = s.reserveBuffers) (hlimit : t.limit = s.limit)
    (hactive : t.activeBuffers = s.activeBuffers) : t.NoneLeft := by
  intro hne
  rw [hreserve, hlimit, hactive]
  exact h (hp hne)

/-- A buffer that becomes free goes to the requests first. -/
theorem NoneLeft.release (h : s.NoneLeft) (ht : s.release m = some t) : t.NoneLeft := by
  rcases release_cases ht with ⟨r, hr, -, rfl⟩ | ⟨hnil, -, rfl⟩ | ⟨hnil, -, rfl⟩
  · refine h.congr (fun _ hnil => ?_) rfl rfl rfl
    simp [hnil] at hr
  · exact fun hne => absurd hnil hne
  · exact fun hne => absurd hnil hne

theorem NoneLeft.unref (h : s.NoneLeft) (ht : s.unref m = some t) : t.NoneLeft := by
  have h' : NoneLeft { s with refc := Function.update s.refc m (s.refc m - 1) } := h
  unfold BufferPool.unref at ht
  dsimp only at ht
  split at ht
  · exact h'.release ht
  · obtain rfl := Option.some.inj ht
    exact h'

/-- A buffer is given away only where nobody waits; it is refused only where there is none. -/
theorem NoneLeft.allocate {r : Option MemId} (h : s.NoneLeft) (ht : s.allocate mem = some (t, r)) :
    t.NoneLeft ∧
      (mem = true → r = none → t.reserveBuffers = [] ∧ t.limit.toNat < t.activeBuffers) := by
  rcases allocate_cases ht with ⟨m, rest, hr, rfl, rfl⟩ | ⟨hr, hle, -, rfl, rfl⟩ | ⟨hr, hno, -, rfl⟩
  · refine ⟨fun hne => ?_, by simp⟩
    have hnil := (h hne).1
    simp [hr] at hnil
  · refine ⟨fun hne => ?_, by simp⟩
    exact absurd (h hne).2 (Nat.not_lt.mpr hle)
  · refine ⟨h, fun hmem _ => ⟨hr, hno.resolve_right ?_⟩⟩
    simp [hmem]

theorem NoneLeft.asyncFinalize (h : s.NoneLeft) : (s.asyncFinalize i).NoneLeft := by
  unfold BufferPool.asyncFinalize
  split
  · refine h.congr (fun hne hnil => hne ?_) rfl rfl rfl
    simp [BufferPool.modify, hnil]
  · exact h

theorem NoneLeft.answer {r : BufferPool × Async} (h : r.1.NoneLeft) : (answer i r).NoneLeft := by
  obtain ⟨u, o⟩ := r
  have hu : u.NoneLeft := h
  cases o with
  | returned => exact hu.asyncFinalize.congr id rfl rfl rfl
  | suspended => exact hu.congr id rfl rfl rfl
  | thrown e => exact hu.asyncFinalize.congr id rfl rfl rfl

theorem NoneLeft.asyncPoll {r : BufferPool × Async} (h : s.NoneLeft) (hmem : mem = true)
    (hr : s.asyncPoll i mem = some r) : r.1.NoneLeft := by
  unfold BufferPool.asyncPoll at hr
  split at hr
  · obtain rfl := Option.some.inj hr
    exact h
  obtain ⟨⟨u, o⟩, hu, rfl⟩ := Option.map_eq_some_iff.mp hr
  obtain ⟨h', hnone⟩ := h.allocate hu
  cases o with
  | some m => exact h'.congr id rfl rfl rfl
  | none =>
    dsimp only
    split
    · exact h'
    · exact fun _ => hnone hmem rfl

theorem NoneLeft.operator (h : s.NoneLeft) (ht : s.operator i = some t) : t.NoneLeft := by
  unfold BufferPool.operator at ht
  dsimp only at ht
  split at ht
  · obtain rfl := Option.some.inj ht
    exact h.congr id rfl rfl rfl
  · rename_i m _
    have h' : NoneLeft ((s.modify i fun a => { a with pool := true }).modify i fun a =>
        { a with result := none }) := h.congr id rfl rfl rfl
    exact h'.unref ht

/-- Nobody waits while buffers are taken out of the reserve. -/
theorem shrink_pending (n : Nat) (h : s.pendingRequests = []) (ht : s.shrink n = some t) :
    t.pendingRequests = [] := by
  induction n generalizing s with
  | zero =>
    obtain rfl := Option.some.inj ht
    exact h
  | succ n ih =>
    unfold shrink at ht
    split at ht
    · obtain rfl := Option.some.inj ht
      exact h
    split at ht
    · obtain ⟨u, hu, ht⟩ := Option.bind_eq_some_iff.mp ht
      refine ih ?_ ht
      rcases release_cases hu with ⟨r, hr, -, -⟩ | ⟨-, -, rfl⟩ | ⟨-, -, rfl⟩
      · simp [h] at hr
      · exact h
      · exact h
    · obtain rfl := Option.some.inj ht
      exact h

theorem grow_pending (grants : Nat) (s : BufferPool) :
    (s.grow grants).pendingRequests = s.pendingRequests := by
  induction grants generalizing s with
  | zero => rfl
  | succ grants ih =>
    unfold grow
    split
    · exact ih _
    · rfl

theorem grow_reserve_ne_nil (grants : Nat) (h : s.reserveBuffers ≠ []) :
    (s.grow grants).reserveBuffers ≠ [] := by
  induction grants generalizing s with
  | zero => exact h
  | succ grants ih =>
    unfold grow
    split
    · exact ih (by simp)
    · exact h

/-- Where the reserve is empty, `reconfigure` only fills it. -/
theorem reconfigure_of_empty {reserve : Nat} {limit : UInt64} {grants : Nat}
    (hr : s.reserveBuffers = []) :
    s.reconfigure reserve limit grants =
      some ({ s with reserve := reserve, limit := limit }.grow grants) := by
  simp [reconfigure, hr, shrink]

/-- Where a request waits, `reconfigure` leaves a buffer in the reserve, or a limit that permits
    another one, unless it does neither. -/
theorem NoneLeft.reconfigure_iff {reserve : Nat} {limit : UInt64} {grants : Nat} (h : s.NoneLeft)
    (hgrants : reserve ≤ grants) (ht : s.reconfigure reserve limit grants = some t) :
    t.NoneLeft ↔ s.NothingNew (.reconfigure reserve limit grants) := by
  by_cases hp : s.pendingRequests = []
  · obtain ⟨u, hu, rfl⟩ := Option.map_eq_some_iff.mp ht
    have hp' : pendingRequests { s with reserve := reserve, limit := limit } = [] := hp
    have hnil : (u.grow grants).pendingRequests = [] :=
      (grow_pending grants u).trans (shrink_pending _ hp' hu)
    exact iff_of_true (fun hne => absurd hnil hne) fun hne => absurd hp hne
  · obtain ⟨hempty, -⟩ := h hp
    rw [reconfigure_of_empty hempty] at ht
    obtain rfl := Option.some.inj ht
    have hpend : ({ s with reserve := reserve, limit := limit }.grow grants).pendingRequests ≠ [] := by
      rw [grow_pending]
      exact hp
    cases reserve with
    | zero =>
      have hsame : { s with reserve := 0, limit := limit }.grow grants =
          { s with reserve := 0, limit := limit } := by
        cases grants with
        | zero => rfl
        | succ grants => exact if_neg (Nat.not_lt_zero _)
      rw [hsame] at hpend ⊢
      exact ⟨fun hleft _ => ⟨rfl, (hleft hpend).2⟩, fun hnew _ => ⟨hempty, (hnew hp).2⟩⟩
    | succ reserve =>
      obtain ⟨grants, rfl⟩ := Nat.exists_eq_add_of_le' (Nat.le_trans (Nat.succ_pos reserve) hgrants)
      refine iff_of_false (fun hleft => ?_) fun hnew => absurd (hnew hp).1 (Nat.succ_ne_zero reserve)
      refine grow_reserve_ne_nil grants (s := _) ?_ (by simpa [grow, hempty] using (hleft hpend).1)
      simp

theorem NoneLeft.step (h : s.NoneLeft) (ha : a.Provided) (hnew : s.NothingNew a)
    (ht : s.step a = some t) : t.NoneLeft := by
  have hcases := step_cases ht
  cases a with
  | allocate mem =>
    obtain ⟨r, hu⟩ := hcases
    exact (h.allocate hu).1
  | copy m =>
    obtain ⟨-, rfl⟩ := hcases
    exact h
  | drop m => exact h.unref hcases.2
  | request i mem =>
    obtain ⟨-, u, r, hu, hr, rfl⟩ := hcases
    exact ((h.operator hu).asyncPoll ha hr).answer
  | run i mem =>
    obtain ⟨-, r, hr, rfl⟩ := hcases
    exact (h.asyncPoll ha hr).answer
  | cancel i =>
    obtain ⟨-, rfl⟩ := hcases
    exact h.asyncFinalize.congr id rfl rfl rfl
  | take i =>
    obtain ⟨-, rfl⟩ := hcases
    exact h.congr id rfl rfl rfl
  | reconfigure reserve limit grants => exact (h.reconfigure_iff ha hcases).mpr hnew

theorem init_noneLeft (reserve : Nat) (limit : UInt64) (grants : Nat) :
    (init reserve limit grants).NoneLeft := fun hne => absurd (grow_pending grants _) hne

/-- A run of a pool, with the spurious resumes. -/
abbrev execSpurious : BufferPool → List (PoolOp ⊕ Id) → Option BufferPool :=
  Runs.exec (withInput BufferPool.step BufferPool.resume)

/-- A request never waits while there is a buffer for it, if and only if no `reconfigure` makes one
    available while a request waits. -/
theorem noneLeft_iff (reserve : Nat) (limit : UInt64) (grants : Nat) (as : List (PoolOp ⊕ Id))
    (hrun : execSpurious (init reserve limit grants) as = some t)
    (hmem : ∀ a, .inl a ∈ as → PoolOp.Provided a) :
    Always (withInput BufferPool.step BufferPool.resume) NoneLeft (init reserve limit grants) as ↔
      Meets (withInput BufferPool.step BufferPool.resume) (onStep NothingNew)
        (init reserve limit grants) as := by
  refine always_iff_meets_of (L := fun a => ∀ b, a = .inl b → b.Provided) (I := NoneLeft) ?_
    (fun _ h => h) ?_ as _ t hrun (fun a ha b hab => hmem b (hab ▸ ha))
    (init_noneLeft reserve limit grants)
  · rintro s (a | i) t hs ha hnew ht
    · exact hs.step (ha a rfl) hnew ht
    · obtain rfl := Option.some.inj ht
      exact hs.congr id rfl rfl rfl
  · rintro s (a | i) t hs ha hnew ht
    · cases a with
      | reconfigure reserve limit grants =>
        exact fun hleft => hnew ((hs.reconfigure_iff (ha _ rfl) ht).mp hleft)
      | _ => exact absurd trivial hnew
    · exact absurd trivial hnew

/-- A request waits, and `reconfigure` fills the reserve. -/
theorem request_waits_beside_buffer :
    ∃ t, execSpurious (init 0 0 0)
        [.inl (.allocate true), .inl (.request 0 true), .inl (.reconfigure 1 5 1)] = some t ∧
      t.pendingRequests = [0] ∧ t.reserveBuffers = [1] ∧ ¬ t.NoneLeft := by
  refine ⟨_, rfl, rfl, rfl, fun hleft => ?_⟩
  have hempty := (hleft (by decide)).1
  exact absurd hempty (by decide)

/-- A request waits, is served by a buffer that is dropped, and only then is the pool reconfigured. -/
theorem noneLeft_iff_served :
    Always (withInput BufferPool.step BufferPool.resume) NoneLeft (init 0 0 0)
      [.inl (.allocate true), .inl (.request 0 true), .inl (.drop 0), .inl (.reconfigure 1 5 1)] := by
  have hmeets : Meets (withInput BufferPool.step BufferPool.resume) (onStep NothingNew) (init 0 0 0)
      [.inl (.allocate true), .inl (.request 0 true), .inl (.drop 0), .inl (.reconfigure 1 5 1)] := by
    decide
  exact (noneLeft_iff 0 0 0 _ rfl (by simp [PoolOp.Provided])).mpr hmeets

/-! ### The limit -/

/-- `_limit`, which is a `long`. -/
def longLimit (s : BufferPool) : Int := s.limit.toInt64.toInt

/-- The pool in which an operation calls `allocate`. -/
def asks (s : BufferPool) : PoolOp → Option BufferPool
  | .allocate _ => some s
  | .request i _ =>
    (s.operator i).bind fun u => if (u.aw i).result.isSome then none else some u
  | .run i _ => if (s.aw i).result.isSome then none else some s
  | _ => none

/-- Unless the limit is negative, no more buffers are active than it says, or than the reserve. -/
def WithinLimit (s : BufferPool) : Prop :=
  0 ≤ s.longLimit → (s.activeBuffers : Int) ≤ max s.longLimit s.reserve

/-- With a negative limit, a buffer is refused only where the provider fails. -/
def RefusedByProvider (s : BufferPool) (a : PoolOp) : Prop :=
  s.longLimit < 0 → ∀ u v, s.asks a = some u → u.allocate a.mem = some (v, none) → a.mem = false

/-- The provider is not asked for a buffer when the limit is reached already; a negative limit is a
    bound for nothing but the size of a `size_t`. -/
def BelowLimit (s : BufferPool) (a : PoolOp) : Prop :=
  ∀ u, s.asks a = some u → a.mem = true → u.reserveBuffers = [] →
    (0 ≤ s.longLimit → u.activeBuffers = s.longLimit → s.longLimit < s.reserve) ∧
    (s.longLimit < 0 → u.activeBuffers ≤ s.limit.toNat)

instance (s : BufferPool) (a : PoolOp) : Decidable (s.BelowLimit a) :=
  inferInstanceAs (Decidable (∀ u ∈ s.asks a, a.mem = true → u.reserveBuffers = [] →
    (0 ≤ s.longLimit → u.activeBuffers = s.longLimit → s.longLimit < s.reserve) ∧
    (s.longLimit < 0 → u.activeBuffers ≤ s.limit.toNat)))

/-- A limit that is not negative is what `allocate` compares with. -/
theorem longLimit_of_nonneg (h : 0 ≤ s.longLimit) : s.longLimit = s.limit.toNat := by
  have hcond : s.longLimit = s.limit.toBitVec.toInt := rfl
  rw [hcond, BitVec.toInt_eq_toNat_cond] at h ⊢
  have hlt := s.limit.toBitVec.isLt
  split at h
  · rw [if_pos ‹_›]
    rfl
  · omega

/-- The configuration is the same, and no more buffers are active. -/
structure Fewer (t s : BufferPool) : Prop where
  limit : t.limit = s.limit
  reserve : t.reserve = s.reserve
  active : t.activeBuffers ≤ s.activeBuffers

theorem Fewer.refl (s : BufferPool) : Fewer s s := ⟨rfl, rfl, Nat.le_refl _⟩

theorem Fewer.trans (h : Fewer u t) (h' : Fewer t s) : Fewer u s :=
  ⟨h.limit.trans h'.limit, h.reserve.trans h'.reserve, Nat.le_trans h.active h'.active⟩

theorem Fewer.longLimit (h : Fewer t s) : t.longLimit = s.longLimit := by
  rw [BufferPool.longLimit, h.limit, BufferPool.longLimit]

theorem Fewer.within (h : Fewer t s) (hs : s.WithinLimit) : t.WithinLimit := by
  intro hlimit
  rw [h.longLimit, h.reserve] at *
  have hle := hs hlimit
  have hactive := h.active
  omega

theorem release_fewer (h : s.release m = some t) : Fewer t s := by
  rcases release_cases h with ⟨r, -, -, rfl⟩ | ⟨-, -, rfl⟩ | ⟨-, -, rfl⟩
  · exact ⟨rfl, rfl, Nat.le_refl _⟩
  · exact ⟨rfl, rfl, Nat.sub_le _ _⟩
  · exact ⟨rfl, rfl, Nat.le_refl _⟩

theorem unref_fewer (h : s.unref m = some t) : Fewer t s := by
  unfold unref at h
  dsimp only at h
  split at h
  · obtain ⟨hlimit, hreserve, hactive⟩ := release_fewer h
    exact ⟨hlimit, hreserve, hactive⟩
  · obtain rfl := Option.some.inj h
    exact ⟨rfl, rfl, Nat.le_refl _⟩

theorem operator_fewer (h : s.operator i = some t) : Fewer t s := by
  unfold operator at h
  dsimp only at h
  split at h
  · obtain rfl := Option.some.inj h
    exact ⟨rfl, rfl, Nat.le_refl _⟩
  · obtain ⟨hlimit, hreserve, hactive⟩ := unref_fewer h
    exact ⟨hlimit, hreserve, hactive⟩

/-- The configuration and the count are the same. -/
structure Alike (t s : BufferPool) : Prop where
  limit : t.limit = s.limit
  reserve : t.reserve = s.reserve
  active : t.activeBuffers = s.activeBuffers

theorem Alike.fewer (h : Alike t s) : Fewer t s := ⟨h.limit, h.reserve, Nat.le_of_eq h.active⟩

theorem answer_alike (r : BufferPool × Async) : Alike (answer i r) r.1 := by
  obtain ⟨u, o⟩ := r
  have hfinal : Alike (u.asyncFinalize i) u := by
    unfold asyncFinalize
    split <;> exact ⟨rfl, rfl, rfl⟩
  cases o with
  | returned => exact ⟨hfinal.limit, hfinal.reserve, hfinal.active⟩
  | suspended => exact ⟨rfl, rfl, rfl⟩
  | thrown e => exact ⟨hfinal.limit, hfinal.reserve, hfinal.active⟩

/-- An `Allocate` that has no buffer yet makes of the pool what `allocate` makes of it. -/
theorem asyncPoll_alike {r : BufferPool × Async} (hnone : ¬ (s.aw i).result.isSome)
    (h : s.asyncPoll i mem = some r) :
    ∃ v o, s.allocate mem = some (v, o) ∧ Alike (answer i r) v := by
  unfold asyncPoll at h
  rw [if_neg hnone] at h
  obtain ⟨⟨v, o⟩, hv, rfl⟩ := Option.map_eq_some_iff.mp h
  refine ⟨v, o, hv, ?_⟩
  cases o with
  | some m =>
    obtain ⟨hlimit, hreserve, hactive⟩ :=
      answer_alike (i := i) (v.modify i fun a => { a with result := some m }, .returned)
    exact ⟨hlimit, hreserve, hactive⟩
  | none =>
    dsimp only
    split
    · exact answer_alike _
    · exact ⟨rfl, rfl, rfl⟩

/-- An `Allocate` that has its buffer returns. -/
theorem asyncPoll_served {r : BufferPool × Async} (hsome : (s.aw i).result.isSome)
    (h : s.asyncPoll i mem = some r) : Alike (answer i r) s := by
  unfold asyncPoll at h
  rw [if_pos hsome] at h
  obtain rfl := Option.some.inj h
  exact answer_alike _

/-- Before `allocate` is called, no buffer has become active. -/
theorem asks_fewer (h : s.asks a = some u) : Fewer u s := by
  cases a with
  | allocate mem =>
    obtain rfl := Option.some.inj h
    exact Fewer.refl s
  | request i mem =>
    obtain ⟨v, hv, h⟩ := Option.bind_eq_some_iff.mp h
    obtain ⟨-, h⟩ := Option.ite_none_left_eq_some.mp h
    obtain rfl := Option.some.inj h
    exact operator_fewer hv
  | run i mem =>
    obtain ⟨-, h⟩ := Option.ite_none_left_eq_some.mp h
    obtain rfl := Option.some.inj h
    exact Fewer.refl s
  | _ => cases h

/-- An operation that asks for a buffer does no more than that. -/
theorem step_asks (hu : s.asks a = some u) (ht : s.step a = some t) :
    ∃ v o, u.allocate a.mem = some (v, o) ∧ Alike t v := by
  have hcases := step_cases ht
  cases a with
  | allocate mem =>
    obtain rfl := Option.some.inj hu
    obtain ⟨o, hv⟩ := hcases
    exact ⟨t, o, hv, rfl, rfl, rfl⟩
  | request i mem =>
    obtain ⟨v, hv, hu⟩ := Option.bind_eq_some_iff.mp hu
    obtain ⟨hnone, hu⟩ := Option.ite_none_left_eq_some.mp hu
    obtain rfl := Option.some.inj hu
    obtain ⟨-, w, r, hw, hr, rfl⟩ := hcases
    obtain rfl : v = w := Option.some.inj (hv.symm.trans hw)
    exact asyncPoll_alike hnone hr
  | run i mem =>
    obtain ⟨hnone, hu⟩ := Option.ite_none_left_eq_some.mp hu
    obtain rfl := Option.some.inj hu
    obtain ⟨-, r, hr, rfl⟩ := hcases
    exact asyncPoll_alike hnone hr
  | _ => cases hu

/-- The others only give buffers back, `reconfigure` apart. -/
theorem step_fewer (hu : s.asks a = none) (ha : ¬ a.Reconfigures) (ht : s.step a = some t) :
    Fewer t s := by
  have hcases := step_cases ht
  cases a with
  | allocate mem => cases hu
  | copy m =>
    obtain ⟨-, rfl⟩ := hcases
    exact ⟨rfl, rfl, Nat.le_refl _⟩
  | drop m => exact unref_fewer hcases.2
  | request i mem =>
    obtain ⟨-, v, r, hv, hr, rfl⟩ := hcases
    have hsome : (v.aw i).result.isSome := by
      simpa [asks, hv, Option.isSome_iff_ne_none] using hu
    exact (asyncPoll_served hsome hr).fewer.trans (operator_fewer hv)
  | run i mem =>
    obtain ⟨-, r, hr, rfl⟩ := hcases
    have hsome : (s.aw i).result.isSome := by simpa [asks, Option.isSome_iff_ne_none] using hu
    exact (asyncPoll_served hsome hr).fewer
  | cancel i =>
    obtain ⟨-, rfl⟩ := hcases
    obtain ⟨hlimit, hreserve, hactive⟩ := answer_alike (i := i) (s, .thrown ⟨0, categoryAsyncAllocate⟩)
    exact ⟨hlimit, hreserve, Nat.le_of_eq hactive⟩
  | take i =>
    obtain ⟨-, rfl⟩ := hcases
    exact ⟨rfl, rfl, Nat.le_refl _⟩
  | reconfigure reserve limit grants => exact absurd trivial ha

/-! ### Runs without `reconfigure` -/

theorem WithinLimit.step (h : s.WithinLimit) (ha : ¬ a.Reconfigures) (hbelow : s.BelowLimit a)
    (ht : s.step a = some t) : t.WithinLimit := by
  cases hu : s.asks a with
  | none => exact (step_fewer hu ha ht).within h
  | some u =>
    have hfewer := asks_fewer hu
    obtain ⟨v, o, hv, hlike⟩ := step_asks hu ht
    refine hlike.fewer.within ?_
    rcases allocate_cases hv with ⟨m, rest, -, -, rfl⟩ | ⟨hr, hle, hmem, -, rfl⟩ | ⟨-, -, -, rfl⟩
    · exact hfewer.within h
    · intro hlimit
      have hs : 0 ≤ s.longLimit := hfewer.longLimit ▸ hlimit
      have hroom := (hbelow u hu hmem hr).1 hs
      have hlong := longLimit_of_nonneg hs
      rw [hfewer.limit] at hle
      change ((u.activeBuffers + 1 : Nat) : Int) ≤ max u.longLimit (u.reserve : Int)
      rw [hfewer.longLimit, hfewer.reserve]
      omega
    · exact hfewer.within h

/-- One step keeps to the limit if and only if it does not ask for a buffer where the limit is
    reached. -/
theorem WithinLimit.step_iff (h : s.WithinLimit) (ha : ¬ a.Reconfigures) (ht : s.step a = some t) :
    (t.WithinLimit ∧ s.RefusedByProvider a) ↔ s.BelowLimit a := by
  constructor
  · intro ⟨hwithin, hrefused⟩ u hu hmem hr
    have hfewer := asks_fewer hu
    obtain ⟨v, o, hv, hlike⟩ := step_asks hu ht
    refine ⟨fun hlimit hat => ?_, fun hneg => ?_⟩
    · have hlong := longLimit_of_nonneg hlimit
      rcases allocate_cases hv with ⟨m, rest, hr', -, -⟩ | ⟨-, -, -, -, rfl⟩ | ⟨-, hno, -, -⟩
      · simp [hr] at hr'
      · have hto : t.longLimit = s.longLimit := hlike.fewer.longLimit.trans hfewer.longLimit
        have hreserve : t.reserve = s.reserve := hlike.reserve.trans hfewer.reserve
        have hactive : t.activeBuffers = u.activeBuffers + 1 := hlike.active
        have hmax := hwithin (hto ▸ hlimit)
        rw [hto, hreserve, hactive] at hmax
        omega
      · rw [hfewer.limit] at hno
        rcases hno with hno | hno
        · omega
        · simp [hmem] at hno
    · by_contra hmany
      have hno : u.allocate a.mem = some (u, none) := by
        rw [← hfewer.limit] at hmany
        simp [allocate, hr, Nat.not_le.mp hmany]
      have hfails := hrefused hneg u u hu hno
      simp [hmem] at hfails
  · intro hbelow
    refine ⟨h.step ha hbelow ht, fun hneg u v hu hno => ?_⟩
    by_contra hmem
    rw [Bool.not_eq_false] at hmem
    rcases allocate_cases hno with ⟨m, rest, -, hnone, -⟩ | ⟨-, -, -, hnone, -⟩ | ⟨hr, hno, -, -⟩
    · cases hnone
    · cases hnone
    · have hle := (hbelow u hu hmem hr).2 hneg
      rw [(asks_fewer hu).limit] at hno
      rcases hno with hno | hno
      · omega
      · simp [hmem] at hno

/-- Where nobody holds a buffer, no more are active than the reserve should hold. -/
theorem Stocked.within (h : s.Stocked) (hfree : ∀ m, s.refc m = 0) : s.WithinLimit := by
  have hheld : s.held = ∅ := by simp [held, hfree]
  have hactive := h.counted.active
  have hroom := h.room
  rw [hheld, Set.ncard_empty] at hactive
  intro _
  omega

/-- From any point of a run at which nobody holds a buffer, and as long as the pool is not reconfigured
    again: the limit is respected if and only if the provider is never asked for a buffer when as many
    are active as the limit says. -/
theorem limit_respected_iff (reserve : Nat) (limit : UInt64) (grants : Nat)
    (bs as : List (PoolOp ⊕ Id)) (hs : execSpurious (init reserve limit grants) bs = some s)
    (hfree : ∀ m, s.refc m = 0) (hrun : execSpurious s as = some t)
    (has : ∀ a, .inl a ∈ as → ¬ PoolOp.Reconfigures a) :
    Always (withInput BufferPool.step BufferPool.resume) WithinLimit s as ∧
        Meets (withInput BufferPool.step BufferPool.resume) (onStep RefusedByProvider) s as ↔
      Meets (withInput BufferPool.step BufferPool.resume) (onStep BelowLimit) s as := by
  have hwithin : s.WithinLimit := (exec_stocked reserve limit grants bs hs).within hfree
  rw [always_iff_next, and_iff_right hwithin, ← meets_and]
  refine meets_congr (L := fun a => ∀ b, a = .inl b → ¬ b.Reconfigures) (I := WithinLimit) ?_ ?_
    as s t hrun (fun a ha b hab => has b (hab ▸ ha)) hwithin
  · rintro s (a | i) t h ha hbelow ht
    · exact h.step (ha a rfl) hbelow ht
    · obtain rfl := Option.some.inj ht
      exact h
  · rintro s (a | i) t h ha ht
    · have hnext : (∀ u, s.step a = some u → u.WithinLimit) ↔ t.WithinLimit := by
        refine ⟨fun hall => hall t ht, fun hw u hu => ?_⟩
        obtain rfl : t = u := Option.some.inj (ht.symm.trans hu)
        exact hw
      exact (and_congr_left' hnext).trans (h.step_iff (ha a rfl) ht)
    · refine iff_of_true ⟨fun u hu => ?_, trivial⟩ trivial
      obtain rfl := Option.some.inj hu
      exact h

/-- Five buffers with a limit of five. -/
theorem limit_respected_five :
    Always (withInput BufferPool.step BufferPool.resume) WithinLimit (init 4 5 4)
      [.inl (.allocate true), .inl (.allocate true), .inl (.request 0 true), .inl (.allocate true),
        .inl (.allocate true)] := by
  have hmeets : Meets (withInput BufferPool.step BufferPool.resume) (onStep BelowLimit) (init 4 5 4)
      [.inl (.allocate true), .inl (.allocate true), .inl (.request 0 true), .inl (.allocate true),
        .inl (.allocate true)] := by
    decide
  exact ((limit_respected_iff 4 5 4 [] _ rfl (fun _ => rfl) rfl
    (by simp [PoolOp.Reconfigures])).mpr hmeets).1

/-- The sixth buffer is given away as well. -/
theorem limit_exceeded :
    ∃ t, execSpurious (init 4 5 4) (List.replicate 6 (.inl (.allocate true))) = some t ∧
      t.activeBuffers = 6 ∧ t.longLimit = 5 ∧ t.reserve = 4 ∧ ¬ t.WithinLimit := by
  refine ⟨_, rfl, rfl, rfl, rfl, fun hwithin => ?_⟩
  exact absurd (hwithin (by decide)) (by decide)

end BufferPool

end Jinx.Sync
