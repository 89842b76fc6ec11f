import Jinx.Lib.Count
import Jinx.Sync.Spurious

/-! Where the buffers of a `BufferPool` are.

    Each active buffer is in the reserve or is held by somebody. `release` gets a buffer that is neither:
    it has left the hands of its last holder, or the reserve. `Counted n` says that `n` buffers are on
    the way like that. Between two operations there is none (`Stocked`). -/

namespace Jinx.Sync

namespace BufferPool

variable {s t : BufferPool} {i : Id} {m : MemId} {mem : Bool} {n : Nat}

/-! ### What the functions do -/

/-- A buffer that nobody holds any more is given to the last request, to the provider, or to the
    reserve. -/
theorem release_cases (h : s.release m = some t) :
    (∃ r, s.pendingRequests.getLast? = some r ∧ s.refc m = 0 ∧
      t = { s with refc := Function.update s.refc m 1
                   pendingRequests := s.pendingRequests.erase r
                   aw := Function.update s.aw r
                     ⟨false, some m, (s.aw r).stage.resume⟩ }) ∨
    (s.pendingRequests = [] ∧ s.reserve ≤ s.reserveBuffers.length ∧
      t = { s with activeBuffers := s.activeBuffers - 1 }) ∨
    (s.pendingRequests = [] ∧ s.reserveBuffers.length < s.reserve ∧
      t = { s with reserveBuffers := m :: s.reserveBuffers }) := by
  unfold release at h
  split at h
  · rename_i r hr
    obtain ⟨u, hu, rfl⟩ := Option.map_eq_some_iff.mp h
    unfold firstRef at hu
    split at hu
    · obtain rfl := Option.some.inj hu
      exact .inl ⟨r, hr, ‹_›, by simp [modify]⟩
    · cases hu
  · rename_i hr
    have hnil : s.pendingRequests = [] := List.getLast?_eq_none_iff.mp hr
    split at h <;> obtain rfl := Option.some.inj h
    · exact .inr (.inl ⟨hnil, ‹_›, rfl⟩)
    · exact .inr (.inr ⟨hnil, Nat.not_le.mp ‹_›, rfl⟩)

/-- `fetch_add` finds a buffer that nobody holds, so the pool does not give up. -/
theorem release_isSome (h : s.refc m = 0) : (s.release m).isSome := by
  unfold release
  split
  · simp [firstRef, h]
  · split <;> rfl

/-- A buffer comes from the reserve, or from the provider unless the limit is passed. -/
theorem allocate_cases {r : Option MemId} (h : s.allocate mem = some (t, r)) :
    (∃ m rest, s.reserveBuffers = m :: rest ∧ r = some m ∧
      t = { s with reserveBuffers := rest, refc := Function.update s.refc m 1 }) ∨
    (s.reserveBuffers = [] ∧ s.activeBuffers ≤ s.limit.toNat ∧ mem = true ∧ r = some s.nextMem ∧
      t = { s with nextMem := s.nextMem + 1, activeBuffers := s.activeBuffers + 1,
                   refc := Function.update s.refc s.nextMem 1 }) ∨
    (s.reserveBuffers = [] ∧ (s.limit.toNat < s.activeBuffers ∨ mem = false) ∧ r = none ∧ t = s) := by
  unfold allocate at h
  cases hr : s.reserveBuffers with
  | cons m rest =>
    simp only [hr, Option.map_eq_some_iff, Prod.mk.injEq, firstRef, Option.ite_none_right_eq_some,
      Option.some.injEq] at h
    obtain ⟨u, ⟨-, rfl⟩, rfl, rfl⟩ := h
    exact .inl ⟨m, rest, rfl, rfl, rfl⟩
  | nil =>
    simp only [hr] at h
    split at h
    · obtain ⟨rfl, rfl⟩ := by simpa using h
      exact .inr (.inr ⟨rfl, .inl ‹_›, rfl, rfl⟩)
    · split at h
      · simp only [Option.map_eq_some_iff, Prod.mk.injEq, firstRef, Option.ite_none_right_eq_some,
          Option.some.injEq] at h
        obtain ⟨u, ⟨-, rfl⟩, rfl, rfl⟩ := h
        exact .inr (.inl ⟨rfl, Nat.not_lt.mp ‹_›, ‹_›, rfl, by simp⟩)
      · obtain ⟨rfl, rfl⟩ := by simpa using h
        exact .inr (.inr ⟨rfl, .inr (by simpa using ‹¬ mem = true›), rfl, rfl⟩)

/-! ### The count -/

/-- The buffers that somebody holds. -/
def held (s : BufferPool) : Set MemId := {m | 0 < s.refc m}

/-- Each active buffer is in the reserve or is held, but for `n` that are on the way. -/
structure Counted (n : Nat) (s : BufferPool) : Prop where
  finite : s.held.Finite
  known : ∀ m, 0 < s.refc m → m < s.nextMem
  apart : ∀ m ∈ s.reserveBuffers, m < s.nextMem ∧ s.refc m = 0
  once : s.reserveBuffers.Nodup
  active : s.activeBuffers = s.reserveBuffers.length + s.held.ncard + n

/-- The buffer `m` is on the way. -/
structure Transit (m : MemId) (s : BufferPool) : Prop where
  counted : s.Counted 1
  known : m < s.nextMem
  free : s.refc m = 0
  out : m ∉ s.reserveBuffers

/-- Each active buffer is in the reserve or is held, and the reserve holds no more than it should. -/
structure Stocked (s : BufferPool) : Prop where
  counted : s.Counted 0
  room : s.reserveBuffers.length ≤ s.reserve

/-- What does not touch the buffers. -/
theorem Counted.congr (h : s.Counted n) (hrefc : t.refc = s.refc) (hnext : t.nextMem = s.nextMem)
    (hreserve : t.reserveBuffers = s.reserveBuffers) (hactive : t.activeBuffers = s.activeBuffers) :
    t.Counted n := by
  have hheld : t.held = s.held := by rw [held, held, hrefc]
  refine ⟨hheld ▸ h.finite, ?_, ?_, hreserve ▸ h.once, ?_⟩
  · rw [hrefc, hnext]
    exact h.known
  · rw [hrefc, hnext, hreserve]
    exact h.apart
  · rw [hactive, hreserve, hheld]
    exact h.active

/-- A buffer on the way is held by somebody. -/
theorem Transit.hold (h : s.Transit m) : Counted 0 { s with refc := Function.update s.refc m 1 } := by
  have hgain := Count.ncard_update_gain (fun k : Nat => 0 < k) (f := s.refc) (i := m) (x := 1)
    h.counted.finite (by simp [h.free]) Nat.one_pos
  refine ⟨Count.finite_update _ h.counted.finite m 1, fun k hk => ?_, fun k hk => ?_, h.counted.once, ?_⟩
  · by_cases hkm : k = m
    · exact hkm ▸ h.known
    · exact h.counted.known k (by simpa [hkm] using hk)
  · have hkm : k ≠ m := by
      rintro rfl
      exact h.out hk
    simpa [hkm] using h.counted.apart k hk
  · have hactive := h.counted.active
    have hheld : held { s with refc := Function.update s.refc m 1 } =
        {j | 0 < Function.update s.refc m 1 j} := rfl
    have hold : s.held = {j | 0 < s.refc j} := rfl
    rw [hheld, hgain, ← hold]
    simp only
    omega

theorem Transit.release (h : s.Transit m) (ht : s.release m = some t) : t.Counted 0 := by
  rcases release_cases ht with ⟨r, -, -, rfl⟩ | ⟨-, -, rfl⟩ | ⟨-, -, rfl⟩
  · exact h.hold.congr rfl rfl rfl rfl
  · refine ⟨h.counted.finite, h.counted.known, h.counted.apart, h.counted.once, ?_⟩
    have hactive := h.counted.active
    change s.activeBuffers - 1 = s.reserveBuffers.length + s.held.ncard + 0
    omega
  · refine ⟨h.counted.finite, h.counted.known, fun k hk => ?_,
      List.nodup_cons.mpr ⟨h.out, h.counted.once⟩, ?_⟩
    · rcases List.mem_cons.mp hk with rfl | hk
      · exact ⟨h.known, h.free⟩
      · exact h.counted.apart k hk
    · have hactive := h.counted.active
      change s.activeBuffers = (m :: s.reserveBuffers).length + s.held.ncard + 0
      rw [List.length_cons]
      omega

/-- A buffer is put back only where there is room for it. -/
theorem release_room (ht : s.release m = some t) :
    t.reserve = s.reserve ∧
      t.reserveBuffers.length ≤ max s.reserveBuffers.length s.reserve := by
  rcases release_cases ht with ⟨r, -, -, rfl⟩ | ⟨-, -, rfl⟩ | ⟨-, hlt, rfl⟩
  · exact ⟨rfl, Nat.le_max_left _ _⟩
  · exact ⟨rfl, Nat.le_max_left _ _⟩
  · exact ⟨rfl, Nat.le_trans (Nat.succ_le_of_lt hlt) (Nat.le_max_right _ _)⟩

/-- The last holder lets go of a buffer. -/
theorem Counted.letGo (h : s.Counted 0) (hm : s.refc m = 1) :
    Transit m { s with refc := Function.update s.refc m 0 } := by
  have hlose := Count.ncard_update_lose (fun k : Nat => 0 < k) (f := s.refc) (i := m) (x := 0)
    h.finite (by simp [hm]) (Nat.lt_irrefl 0)
  have hpos : 0 < s.refc m := by omega
  have hout : m ∉ s.reserveBuffers := fun hmem => by
    have hfree := (h.apart m hmem).2
    omega
  refine ⟨⟨Count.finite_update _ h.finite m 0, fun k hk => ?_, fun k hk => ?_, h.once, ?_⟩,
    h.known m hpos, by simp, hout⟩
  · by_cases hkm : k = m
    · simp [hkm] at hk
    · exact h.known k (by simpa [hkm] using hk)
  · have hkm : k ≠ m := by
      rintro rfl
      exact hout hk
    simpa [hkm] using h.apart k hk
  · have hactive := h.active
    have hheld : held { s with refc := Function.update s.refc m 0 } =
        {j | 0 < Function.update s.refc m 0 j} := rfl
    have hold : s.held = {j | 0 < s.refc j} := rfl
    rw [hold, ← hlose] at hactive
    rw [hheld]
    change s.activeBuffers = s.reserveBuffers.length + {j | 0 < Function.update s.refc m 0 j}.ncard + 1
    omega

/-- A reference is added or taken away, and there is one before and after. -/
theorem Counted.share (h : s.Counted n) {k : Nat} (hm : 0 < k ↔ 0 < s.refc m) :
    Counted n { s with refc := Function.update s.refc m k } := by
  have hsame : held { s with refc := Function.update s.refc m k } = s.held := by
    ext j
    by_cases hj : j = m
    · subst hj
      simp [held, hm]
    · simp [held, hj]
  have hpos : ∀ j, 0 < Function.update s.refc m k j ↔ 0 < s.refc j := fun j => Set.ext_iff.mp hsame j
  refine ⟨hsame ▸ h.finite, fun j hj => h.known j ((hpos j).mp hj), fun j hj => ?_, h.once, ?_⟩
  · refine ⟨(h.apart j hj).1, Nat.eq_zero_of_not_pos fun hlt => ?_⟩
    have hfree := (h.apart j hj).2
    have hheld := (hpos j).mp hlt
    omega
  · rw [hsame]
    exact h.active

/-! ### The functions keep it -/

theorem Stocked.congr (h : s.Stocked) (hrefc : t.refc = s.refc) (hnext : t.nextMem = s.nextMem)
    (hreserve : t.reserveBuffers = s.reserveBuffers) (hactive : t.activeBuffers = s.activeBuffers)
    (hroom : t.reserve = s.reserve) : t.Stocked := by
  refine ⟨h.counted.congr hrefc hnext hreserve hactive, ?_⟩
  rw [hreserve, hroom]
  exact h.room

theorem Stocked.unref (h : s.Stocked) (ht : s.unref m = some t) : t.Stocked := by
  unfold BufferPool.unref at ht
  dsimp only at ht
  split at ht
  · rename_i hm
    rw [hm] at ht
    refine ⟨(h.counted.letGo hm).release ht, ?_⟩
    obtain ⟨hreserve, hle⟩ := release_room ht
    have hroom := h.room
    simp only at hreserve hle
    omega
  · obtain rfl := Option.some.inj ht
    exact ⟨h.counted.share (by omega), h.room⟩

/-- A buffer is taken out of the reserve. -/
theorem Counted.pop {rest : List MemId} (h : s.Counted 0) (hr : s.reserveBuffers = m :: rest) :
    Transit m { s with reserveBuffers := rest } := by
  have hm := h.apart m (by simp [hr])
  have honce : (m :: rest).Nodup := hr ▸ h.once
  obtain ⟨hout, hnodup⟩ := List.nodup_cons.mp honce
  refine ⟨⟨h.finite, h.known, fun k hk => h.apart k (by simp [hr, hk]), hnodup, ?_⟩, hm.1, hm.2, hout⟩
  have hactive := h.active
  rw [hr, List.length_cons] at hactive
  change s.activeBuffers = rest.length + s.held.ncard + 1
  omega

/-- A buffer comes from the provider. -/
theorem Counted.provide (h : s.Counted 0) :
    Transit s.nextMem
      { s with nextMem := s.nextMem + 1, activeBuffers := s.activeBuffers + 1 } := by
  have hfree : s.refc s.nextMem = 0 :=
    Nat.eq_zero_of_not_pos fun hpos => Nat.lt_irrefl _ (h.known s.nextMem hpos)
  have hout : s.nextMem ∉ s.reserveBuffers := fun hmem =>
    Nat.lt_irrefl _ (h.apart s.nextMem hmem).1
  refine ⟨⟨h.finite, fun k hk => Nat.lt_succ_of_lt (h.known k hk), fun k hk => ?_, h.once, ?_⟩,
    Nat.lt_succ_self _, hfree, hout⟩
  · exact ⟨Nat.lt_succ_of_lt (h.apart k hk).1, (h.apart k hk).2⟩
  · have hactive := h.active
    change s.activeBuffers + 1 = s.reserveBuffers.length + s.held.ncard + 1
    omega

theorem Stocked.allocate {r : Option MemId} (h : s.Stocked) (ht : s.allocate mem = some (t, r)) :
    t.Stocked := by
  have hroom := h.room
  rcases allocate_cases ht with ⟨m, rest, hr, -, rfl⟩ | ⟨hr, -, -, -, rfl⟩ | ⟨-, -, -, rfl⟩
  · refine ⟨(h.counted.pop hr).hold, ?_⟩
    rw [hr, List.length_cons] at hroom
    change rest.length ≤ s.reserve
    omega
  · exact ⟨h.counted.provide.hold, hroom⟩
  · exact h

/-- As many turns as there are buffers too many are enough. -/
theorem Counted.shrink (n : Nat) (h : s.Counted 0) (hn : s.reserveBuffers.length ≤ s.reserve + n)
    (ht : s.shrink n = some t) : t.Stocked := by
  induction n generalizing s with
  | zero =>
    obtain rfl := Option.some.inj ht
    exact ⟨h, hn⟩
  | succ n ih =>
    unfold BufferPool.shrink at ht
    split at ht
    · rename_i hr
      obtain rfl := Option.some.inj ht
      exact ⟨h, by simp [hr]⟩
    · rename_i m rest hr
      split at ht
      · rename_i hlt
        obtain ⟨u, hu, ht⟩ := Option.bind_eq_some_iff.mp ht
        obtain ⟨hreserve, hle⟩ := release_room hu
        rw [hr, List.length_cons] at hlt hn
        simp only at hreserve hle
        exact ih ((h.pop hr).release hu) (by omega) ht
      · obtain rfl := Option.some.inj ht
        exact ⟨h, Nat.not_lt.mp ‹_›⟩

theorem Stocked.grow (grants : Nat) (h : s.Stocked) : (s.grow grants).Stocked := by
  induction grants generalizing s with
  | zero => exact h
  | succ grants ih =>
    unfold BufferPool.grow
    split
    · rename_i hlt
      obtain ⟨hcounted, hknown, hfree, hout⟩ := h.counted.provide
      refine ih ⟨⟨hcounted.finite, hcounted.known, fun k hk => ?_,
        List.nodup_cons.mpr ⟨hout, hcounted.once⟩, ?_⟩, hlt⟩
      · rcases List.mem_cons.mp hk with rfl | hk
        · exact ⟨hknown, hfree⟩
        · exact hcounted.apart k hk
      · have hactive := h.counted.active
        change s.activeBuffers + 1 = (s.nextMem :: s.reserveBuffers).length + s.held.ncard + 0
        rw [List.length_cons]
        omega
    · exact h

/-- Also where there were too many buffers in the reserve, there are not any more. -/
theorem Stocked.reconfigure {reserve : Nat} {limit : UInt64} {grants : Nat} (h : s.Stocked)
    (ht : s.reconfigure reserve limit grants = some t) : t.Stocked := by
  obtain ⟨u, hu, rfl⟩ := Option.map_eq_some_iff.mp ht
  have h' : Counted 0 { s with reserve := reserve, limit := limit } :=
    h.counted.congr rfl rfl rfl rfl
  exact Stocked.grow grants (h'.shrink _ (Nat.le_add_left _ _) hu)

theorem init_stocked (reserve : Nat) (limit : UInt64) (grants : Nat) :
    (init reserve limit grants).Stocked := by
  have hheld : held { reserve, limit : BufferPool } = ∅ := by simp [held]
  refine Stocked.grow grants ⟨⟨?_, by simp, by simp, List.nodup_nil, ?_⟩, Nat.zero_le _⟩
  · rw [hheld]
    exact Set.finite_empty
  · rw [hheld, Set.ncard_empty]
    rfl

theorem Stocked.asyncFinalize (h : s.Stocked) : (s.asyncFinalize i).Stocked := by
  unfold BufferPool.asyncFinalize
  split
  · exact h.congr rfl rfl rfl rfl rfl
  · exact h

theorem Stocked.answer {r : BufferPool × Async} (h : r.1.Stocked) : (answer i r).Stocked := by
  obtain ⟨u, o⟩ := r
  have hu : u.Stocked := h
  cases o with
  | returned => exact hu.asyncFinalize.congr rfl rfl rfl rfl rfl
  | suspended => exact hu.congr rfl rfl rfl rfl rfl
  | thrown e => exact hu.asyncFinalize.congr rfl rfl rfl rfl rfl

theorem Stocked.asyncPoll {r : BufferPool × Async} (h : s.Stocked) (hr : s.asyncPoll i mem = some r) :
    r.1.Stocked := by
  unfold BufferPool.asyncPoll at hr
  split at hr
  · obtain rfl := Option.some.inj hr
    exact h
  obtain ⟨⟨u, o⟩, hu, rfl⟩ := Option.map_eq_some_iff.mp hr
  have h' : u.Stocked := h.allocate hu
  cases o with
  | some m => exact h'.congr rfl rfl rfl rfl rfl
  | none =>
    dsimp only
    split
    · exact h'
    · exact h'.congr rfl rfl rfl rfl rfl

theorem Stocked.operator (h : s.Stocked) (ht : s.operator i = some t) : t.Stocked := by
  unfold BufferPool.operator at ht
  dsimp only at ht
  split at ht
  · obtain rfl := Option.some.inj ht
    exact h.congr rfl rfl rfl rfl rfl
  · rename_i m _
    have h' : Stocked ((s.modify i fun a => { a with pool := true }).modify i fun a =>
        { a with result := none }) := h.congr rfl rfl rfl rfl rfl
    exact h'.unref ht

theorem Stocked.resume (h : s.Stocked) (i : Id) : (s.resume i).Stocked :=
  h.congr rfl rfl rfl rfl rfl

theorem Stocked.step {a : PoolOp} (h : s.Stocked) (ht : s.step a = some t) : t.Stocked := by
  have hcases := step_cases ht
  cases a with
  | allocate mem =>
    obtain ⟨r, hu⟩ := hcases
    exact h.allocate hu
  | copy m =>
    obtain ⟨hm, rfl⟩ := hcases
    exact ⟨h.counted.share (by omega), h.room⟩
  | drop m => exact h.unref hcases.2
  | request i mem =>
    obtain ⟨-, u, r, hu, hr, rfl⟩ := hcases
    exact ((h.operator hu).asyncPoll hr).answer
  | run i mem =>
    obtain ⟨-, r, hr, rfl⟩ := hcases
    exact (h.asyncPoll hr).answer
  | cancel i =>
    obtain ⟨-, rfl⟩ := hcases
    exact h.asyncFinalize.congr rfl rfl rfl rfl rfl
  | take i =>
    obtain ⟨-, rfl⟩ := hcases
    exact h.congr rfl rfl rfl rfl rfl
  | reconfigure reserve limit grants => exact h.reconfigure hcases

/-- In every run of a pool, also where tasks are resumed that nobody meant to resume, the buffers are
    counted right. -/
theorem exec_stocked (reserve : Nat) (limit : UInt64) (grants : Nat) (as : List (PoolOp ⊕ Id))
    (h : Runs.exec (Runs.withInput BufferPool.step BufferPool.resume) (init reserve limit grants) as =
      some t) : t.Stocked :=
  Runs.withInput_invariant (fun _ _ _ hs ht => hs.step ht) (fun _ i hs => hs.resume i) as _ t h
    (init_stocked reserve limit grants)

end BufferPool

end Jinx.Sync
