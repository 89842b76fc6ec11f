import Jinx.Sync.BufferHandles

/-! The count of a buffer is the number of handles that point to it.

    `Refs l` says so, where the code that runs has the handles `l` of its own: `allocate` leaves it
    with one more, `unref` uses one up. The last one that is used up sets the buffer free, and so
    everything that `PoolCount` says about held buffers is about handles. -/

namespace Jinx.Sync

open Jinx.Http (BufferView)
open Count

/-! ### Who waits -/

/-- The task is in the `Allocate` and has no buffer yet. -/
def Allocate.Waiting (a : Allocate) : Prop :=
  (a.stage = .suspended ∨ a.stage = .scheduled) ∧ a.result = none

/-- The list holds those who wait, also where they were resumed by mistake. -/
structure Allocate.Queued (queued : Prop) (a : Allocate) : Prop where
  queued : queued ↔ a.Waiting
  pool : a.Waiting → a.pool

theorem Allocate.Queued.of_not {queued : Prop} {a : Allocate} (hq : ¬ queued) (ha : ¬ a.Waiting) :
    a.Queued queued := ⟨iff_of_false hq ha, fun hw => absurd hw ha⟩

namespace BufferPool

variable {s t : BufferPool} {i : Id} {m : MemId} {mem : Bool} {a : Allocate}

structure Queued (s : BufferPool) : Prop where
  aw : ∀ i, (s.aw i).Queued (i ∈ s.pendingRequests)
  once : s.pendingRequests.Nodup

theorem Queued.congr (h : s.Queued) (haw : t.aw = s.aw) (hp : t.pendingRequests = s.pendingRequests) :
    t.Queued := ⟨by rw [haw, hp]; exact h.aw, hp ▸ h.once⟩

/-- One record is written, and nobody else comes or goes. -/
theorem Queued.write (h : s.Queued) (haw : t.aw = Function.update s.aw i a)
    (hothers : ∀ j, j ≠ i → (j ∈ t.pendingRequests ↔ j ∈ s.pendingRequests))
    (honce : t.pendingRequests.Nodup) (ha : a.Queued (i ∈ t.pendingRequests)) : t.Queued := by
  refine ⟨fun j => ?_, honce⟩
  by_cases hj : j = i
  · rw [haw, hj, Function.update_self]
    exact ha
  · rw [haw, Function.update_of_ne hj]
    exact ⟨(hothers j hj).trans (h.aw j).queued, (h.aw j).pool⟩

/-- The record of someone who is not in the list. -/
theorem Queued.record (h : s.Queued) (hi : i ∉ s.pendingRequests) (ha : ¬ a.Waiting)
    (haw : t.aw = Function.update s.aw i a) (hp : t.pendingRequests = s.pendingRequests) : t.Queued :=
  h.write haw (fun j _ => by rw [hp]) (hp ▸ h.once) (.of_not (hp ▸ hi) ha)

theorem Queued.not_mem_of_stage (h : s.Queued)
    (hi : (s.aw i).stage = .idle ∨ (s.aw i).stage = .returned) : i ∉ s.pendingRequests := by
  intro hmem
  have hstage := ((h.aw i).queued.mp hmem).1
  rcases hi with hi | hi <;> simp [hi] at hstage

/-- The last request leaves the list with its buffer. -/
theorem Queued.release (h : s.Queued) (ht : s.release m = some t) : t.Queued := by
  rcases release_cases ht with ⟨r, -, -, rfl⟩ | ⟨-, -, rfl⟩ | ⟨-, -, rfl⟩
  · refine h.write rfl (fun j hj => ?_) (h.once.erase r) (.of_not ?_ ?_)
    · exact List.mem_erase_of_ne hj
    · exact h.once.not_mem_erase
    · exact fun hw => absurd hw.2 (by simp)
  · exact h.congr rfl rfl
  · exact h.congr rfl rfl

/-- Everybody but `i` is in order, and `i` can leave the list. -/
structure QueuedBut (i : Id) (s : BufferPool) : Prop where
  others : ∀ j, j ≠ i → (s.aw j).Queued (j ∈ s.pendingRequests)
  once : s.pendingRequests.Nodup
  pool : i ∈ s.pendingRequests → (s.aw i).pool

theorem Queued.but (h : s.Queued) (i : Id) : s.QueuedBut i :=
  ⟨fun j _ => h.aw j, h.once, fun hmem => (h.aw i).pool ((h.aw i).queued.mp hmem)⟩

theorem QueuedBut.modify {f : Allocate → Allocate} (h : s.QueuedBut i)
    (hf : (f (s.aw i)).pool = (s.aw i).pool) : (s.modify i f).QueuedBut i := by
  refine ⟨fun j hj => ?_, h.once, fun hmem => ?_⟩
  · simpa [BufferPool.modify, hj] using h.others j hj
  · simpa [BufferPool.modify, hf] using h.pool hmem

/-- An `Allocate` is finalized. -/
theorem QueuedBut.leave (h : s.QueuedBut i) {st : Stage} (hst : st = .idle ∨ st = .returned) :
    ((s.asyncFinalize i).modify i fun a => { a with stage := st }).Queued := by
  have hnot : ∀ p r, ¬ (Allocate.mk p r st).Waiting := by
    rintro p r ⟨hstage, -⟩
    rcases hst with rfl | rfl <;> simp at hstage
  unfold asyncFinalize
  split
  · refine ⟨fun j => ?_, by simpa [BufferPool.modify] using h.once.erase i⟩
    by_cases hj : j = i
    · subst hj
      exact .of_not (by simp [BufferPool.modify, h.once.mem_erase_iff])
        (by simpa [BufferPool.modify] using hnot _ _)
    · have hother := h.others j hj
      simp only [BufferPool.modify, LinkedList.erase_fst, Function.update_of_ne hj]
      exact ⟨(List.mem_erase_of_ne hj).trans hother.queued, hother.pool⟩
  · rename_i hpool
    refine ⟨fun j => ?_, h.once⟩
    by_cases hj : j = i
    · subst hj
      exact .of_not (fun hmem => hpool (h.pool hmem)) (by simpa [BufferPool.modify] using hnot _ _)
    · simpa [BufferPool.modify, hj] using h.others j hj

theorem Queued.resume (h : s.Queued) (i : Id) : (s.resume i).Queued := by
  have hi := h.aw i
  refine h.write rfl (fun j _ => Iff.rfl) h.once ?_
  have hsame (st : Stage) : st.resume = .suspended ∨ st.resume = .scheduled ↔
      st = .suspended ∨ st = .scheduled := by
    rw [or_iff_right (Stage.resume_ne st), Stage.resume_eq_scheduled]
  have hw : Allocate.Waiting { s.aw i with stage := (s.aw i).stage.resume } ↔ (s.aw i).Waiting :=
    and_congr_left' (hsame _)
  exact ⟨hi.queued.trans hw.symm, fun hwait => hi.pool (hw.mp hwait)⟩

theorem Queued.grow (grants : Nat) (h : s.Queued) : (s.grow grants).Queued := by
  induction grants generalizing s with
  | zero => exact h
  | succ grants ih =>
    unfold BufferPool.grow
    split
    · exact ih (h.congr rfl rfl)
    · exact h

theorem init_queued (reserve : Nat) (limit : UInt64) (grants : Nat) :
    (init reserve limit grants).Queued := by
  refine Queued.grow grants ⟨fun i => .of_not List.not_mem_nil ?_, List.nodup_nil⟩
  exact fun hw => absurd hw.1 (by simp)

/-- What new buffers in the reserve are. -/
theorem grow_spec (grants : Nat) (s : BufferPool) :
    (s.grow grants).refc = s.refc ∧ (s.grow grants).aw = s.aw ∧ s.nextMem ≤ (s.grow grants).nextMem ∧
      ∀ m ∈ (s.grow grants).reserveBuffers, m ∈ s.reserveBuffers ∨ s.nextMem ≤ m := by
  induction grants generalizing s with
  | zero => exact ⟨rfl, rfl, Nat.le_refl _, fun m hm => .inl hm⟩
  | succ grants ih =>
    unfold grow
    split
    · obtain ⟨hrefc, haw, hnext, hreserve⟩ := ih { s with
        activeBuffers := s.activeBuffers + 1
        reserveBuffers := s.nextMem :: s.reserveBuffers
        nextMem := s.nextMem + 1 }
      refine ⟨hrefc, haw, Nat.le_trans (Nat.le_succ _) hnext, fun m hm => ?_⟩
      rcases hreserve m hm with hm | hm
      · rcases List.mem_cons.mp hm with rfl | hm
        · exact .inr (Nat.le_refl _)
        · exact .inl hm
      · exact .inr (Nat.le_trans (Nat.le_succ _) hm)
    · exact ⟨rfl, rfl, Nat.le_refl _, fun m hm => .inl hm⟩

/-- The buffers are where they were. -/
structure Same (t s : BufferPool) : Prop where
  refc : t.refc = s.refc
  nextMem : t.nextMem = s.nextMem
  reserveBuffers : t.reserveBuffers = s.reserveBuffers
  activeBuffers : t.activeBuffers = s.activeBuffers
  reserve : t.reserve = s.reserve

theorem Same.stocked (h : Same t s) (hs : s.Stocked) : t.Stocked :=
  hs.congr h.refc h.nextMem h.reserveBuffers h.activeBuffers h.reserve

theorem leave_same (s : BufferPool) (i : Id) (st : Stage) :
    Same ((s.asyncFinalize i).modify i fun a => { a with stage := st }) s := by
  unfold asyncFinalize
  split <;> exact ⟨rfl, rfl, rfl, rfl, rfl⟩

/-- Where `async_finalize` leaves the result alone. -/
theorem leave_aw (s : BufferPool) (i : Id) (st : Stage) :
    ((s.asyncFinalize i).modify i fun a => { a with stage := st }).aw =
      Function.update s.aw i ⟨false, (s.aw i).result, st⟩ := by
  unfold asyncFinalize
  split
  · simp [modify]
  · rename_i hpool
    simp [modify, hpool]

end BufferPool

namespace Buffers

variable {s t : Buffers} {i : Id} {m : MemId} {h : HandleId} {mem : Bool} {l l' : List MemId}
  {o : Option MemId}

/-! ### The references -/

/-- The handles that the `Allocate`s have for their result. -/
def results (s : Buffers) : Id → Option MemId := fun i => (s.pool.aw i).result

/-- Every count is the number of handles, with those in `l`. -/
structure Refs (l : List MemId) (s : Buffers) : Prop where
  handles : Finitely s.handle
  results : Finitely s.results
  refc : ∀ m, s.pool.refc m = number s.handle m + number s.results m + l.count m

theorem count_toList (o : Option MemId) (m : MemId) :
    o.toList.count m = if o = some m then 1 else 0 := by
  cases o <;> simp [List.count_cons]

theorem results_update {f : Allocate} (haw : t.pool.aw = Function.update s.pool.aw i f) :
    t.results = Function.update s.results i f.result := by
  funext j
  by_cases hj : j = i
  · simp [results, haw, hj]
  · simp [results, haw, hj]

/-- Counts change, and pointers of the code that runs. -/
theorem Refs.recount (hs : s.Refs l) (hh : t.handle = s.handle) (hr : t.results = s.results)
    (hc : ∀ m, t.pool.refc m + l.count m = s.pool.refc m + l'.count m) : t.Refs l' := by
  refine ⟨hh ▸ hs.handles, hr ▸ hs.results, fun m => ?_⟩
  have hold := hs.refc m
  have hnew := hc m
  rw [hh, hr]
  omega

theorem Refs.congr (hs : s.Refs l) (hh : t.handle = s.handle) (hr : t.results = s.results)
    (hc : t.pool.refc = s.pool.refc) : t.Refs l :=
  hs.recount hh hr fun m => by rw [hc]

/-- A handle is set, and what it pointed to is in other hands. -/
theorem Refs.setHandle (hs : s.Refs l) (hh : t.handle = Function.update s.handle h o)
    (hr : t.results = s.results) (hc : t.pool.refc = s.pool.refc)
    (hl : ∀ m, l'.count m + (if o = some m then 1 else 0) =
      l.count m + if s.handle h = some m then 1 else 0) : t.Refs l' := by
  refine ⟨hh ▸ hs.handles.update h o, hr ▸ hs.results, fun m => ?_⟩
  have hold := hs.refc m
  have hupdate := number_update hs.handles h o m
  have hcount := hl m
  rw [hc, hh, hr]
  omega

/-- The same for the result of an `Allocate`. -/
theorem Refs.setResult (hs : s.Refs l) (hh : t.handle = s.handle)
    (hr : t.results = Function.update s.results i o) (hc : t.pool.refc = s.pool.refc)
    (hl : ∀ m, l'.count m + (if o = some m then 1 else 0) =
      l.count m + if s.results i = some m then 1 else 0) : t.Refs l' := by
  refine ⟨hh ▸ hs.handles, hr ▸ hs.results.update i o, fun m => ?_⟩
  have hold := hs.refc m
  have hupdate := number_update hs.results i o m
  have hcount := hl m
  rw [hc, hh, hr]
  omega

/-- The first reference to a buffer. -/
theorem Refs.first (hs : s.Refs l) (hm : s.pool.refc m = 0) (hh : t.handle = s.handle)
    (hr : t.results = s.results) (hc : t.pool.refc = Function.update s.pool.refc m 1) :
    t.Refs (m :: l) := by
  refine hs.recount hh hr fun k => ?_
  by_cases hk : k = m
  · simp only [hc, hk, Function.update_self, List.count_cons_self, hm]
    omega
  · rw [hc, Function.update_of_ne hk, List.count_cons_of_ne (Ne.symm hk)]

/-- Somebody points to `m`. -/
def Held (s : Buffers) (m : MemId) : Prop := (∃ h, s.handle h = some m) ∨ ∃ i, s.results i = some m

theorem Refs.held_iff (hs : s.Refs []) : s.Held m ↔ 0 < s.pool.refc m := by
  rw [Held, ← number_pos hs.handles, ← number_pos hs.results, hs.refc, List.count_nil]
  omega

/-! ### All that holds between two operations -/

/-- What holds also while a buffer is on the way. -/
structure Kept (l : List MemId) (s : Buffers) : Prop where
  refs : s.Refs l
  queued : s.pool.Queued
  freed : ∀ m ∈ s.freed, m < s.pool.nextMem ∧ s.pool.refc m = 0 ∧ m ∉ s.pool.reserveBuffers
  handed : ∀ e ∈ s.handed, e.refc = 1 ∧ e.view = .empty s.size

structure Sound (l : List MemId) (s : Buffers) : Prop extends Kept l s where
  stocked : s.pool.Stocked

/-- A buffer is handed out with one reference and an empty view. -/
theorem handed_hand {pool : BufferPool} (hs : ∀ e ∈ s.handed, e.refc = 1 ∧ e.view = .empty s.size)
    (hm : pool.refc m = 1) : ∀ e ∈ (s.hand pool m).handed, e.refc = 1 ∧ e.view = .empty s.size := by
  intro e he
  rcases List.mem_cons.mp he with rfl | he
  · exact ⟨hm, Function.update_self m _ _⟩
  · exact hs e he

theorem release_pool (ht : s.release m = some t) : s.pool.release m = some t.pool := by
  obtain ⟨pool, hpool, rfl⟩ := Option.map_eq_some_iff.mp ht
  rw [hpool]
  split
  · rfl
  · split <;> rfl

theorem Kept.release (hs : s.Kept l) (hm : s.pool.Transit m) (hnew : m ∉ s.freed)
    (ht : s.release m = some t) : t.Kept l ∧ t.handle = s.handle := by
  obtain ⟨pool, hpool, rfl⟩ := Option.map_eq_some_iff.mp ht
  have hqueued := hs.queued.release hpool
  rcases BufferPool.release_cases hpool with ⟨r, hr, -, rfl⟩ | ⟨hnil, hle, rfl⟩ | ⟨hnil, hlt, rfl⟩
  · have hne : s.pool.pendingRequests ≠ [] := by
      rintro hnil
      simp [hnil] at hr
    have hnone : s.results r = none :=
      ((hs.queued.aw r).queued.mp (List.mem_of_getLast? hr)).2
    rw [if_pos hne]
    refine ⟨⟨?_, hqueued, fun k hk => ?_, handed_hand hs.handed (Function.update_self m _ _)⟩, rfl⟩
    · have hfirst : Refs (m :: l) { s with pool := { s.pool with refc := Function.update s.pool.refc m 1 } } :=
        hs.refs.first hm.free rfl rfl rfl
      refine hfirst.setResult rfl (results_update rfl) rfl fun k => ?_
      have hnone' : results { s with pool := { s.pool with refc := Function.update s.pool.refc m 1 } } r =
          none := hnone
      simp [hnone', List.count_cons]
    · obtain ⟨hlt, hfree, hout⟩ := hs.freed k hk
      have hkm : k ≠ m := fun hkm => hnew (hkm ▸ hk)
      exact ⟨hlt, by simpa [hand, hkm] using hfree, hout⟩
  · rw [if_neg (not_not.mpr hnil), if_pos hle]
    refine ⟨⟨hs.refs.congr rfl rfl rfl, hqueued, fun k hk => ?_, hs.handed⟩, rfl⟩
    rcases List.mem_cons.mp hk with rfl | hk
    · exact ⟨hm.known, hm.free, hm.out⟩
    · exact hs.freed k hk
  · rw [if_neg (not_not.mpr hnil), if_neg (Nat.not_le.mpr hlt)]
    refine ⟨⟨hs.refs.congr rfl rfl rfl, hqueued, fun k hk => ?_, hs.handed⟩, rfl⟩
    obtain ⟨hknown, hfree, hout⟩ := hs.freed k hk
    have hkm : k ≠ m := fun hkm => hnew (hkm ▸ hk)
    exact ⟨hknown, hfree, by simp [hkm, hout]⟩

/-- A pointer goes away, and with the last one the buffer is released. -/
theorem Sound.fetchSub (hs : s.Sound (m :: l)) (ht : s.fetchSub m = some t) :
    t.Sound l ∧ t.handle = s.handle := by
  unfold Buffers.fetchSub at ht
  dsimp only at ht
  rw [Option.ite_none_left_eq_some] at ht
  obtain ⟨hne, ht⟩ := ht
  have hrefs : Refs l { s with pool :=
      { s.pool with refc := Function.update s.pool.refc m (s.pool.refc m - 1) } } := by
    refine hs.refs.recount rfl rfl fun k => ?_
    by_cases hk : k = m
    · simp only [hk, Function.update_self, List.count_cons_self]
      omega
    · simp only [Function.update_of_ne hk, List.count_cons_of_ne (Ne.symm hk)]
  have hfreed : ∀ k ∈ s.freed, k ≠ m := by
    rintro k hk rfl
    exact hne (hs.freed k hk).2.1
  have hkept : Kept l { s with pool :=
      { s.pool with refc := Function.update s.pool.refc m (s.pool.refc m - 1) } } := by
    refine ⟨hrefs, hs.queued.congr rfl rfl, fun k hk => ?_, hs.handed⟩
    obtain ⟨hknown, hfree, hout⟩ := hs.freed k hk
    exact ⟨hknown, by simpa [hfreed k hk] using hfree, hout⟩
  split at ht
  · rename_i hone
    rw [hone] at ht hkept
    have htransit := hs.stocked.counted.letGo hone
    obtain ⟨hkept', hhandle⟩ := hkept.release htransit (fun hmem => hfreed m hmem rfl) ht
    have hpool := release_pool ht
    obtain ⟨hreserve, hle⟩ := BufferPool.release_room hpool
    have hroom := hs.stocked.room
    simp only at hreserve hle
    exact ⟨⟨hkept', htransit.release hpool, by omega⟩, hhandle⟩
  · obtain rfl := Option.some.inj ht
    exact ⟨⟨hkept, hs.stocked.counted.share (by omega), hs.stocked.room⟩, rfl⟩

/-- `allocate` leaves the caller with a handle. -/
theorem Sound.allocate (hs : s.Sound l) (ht : s.allocate mem = some (t, o)) :
    t.Sound (o.toList ++ l) ∧ t.handle = s.handle ∧ t.pool.aw = s.pool.aw := by
  obtain ⟨⟨pool, r⟩, hpool, heq⟩ := Option.map_eq_some_iff.mp ht
  have hstocked := hs.stocked.allocate hpool
  obtain ⟨haw, hp⟩ := BufferPool.allocate_frame hpool
  have hqueued : pool.Queued := hs.queued.congr haw hp
  have hfresh : ∀ m, (m ∈ s.pool.reserveBuffers ∨ m = s.pool.nextMem) → s.pool.refc m = 0 ∧ m ∉ s.freed := by
    rintro m (hm | rfl)
    · exact ⟨(hs.stocked.counted.apart m hm).2, fun hmem => (hs.freed m hmem).2.2 hm⟩
    · exact ⟨hs.stocked.counted.provide.free, fun hmem => Nat.lt_irrefl _ (hs.freed _ hmem).1⟩
  have hgiven : ∀ m, (m ∈ s.pool.reserveBuffers ∨ m = s.pool.nextMem) →
      pool.refc = Function.update s.pool.refc m 1 → s.pool.nextMem ≤ pool.nextMem →
      (∀ k ∈ pool.reserveBuffers, k ∈ s.pool.reserveBuffers) →
      Sound (m :: l) (s.hand pool m) := by
    intro m hm hrefc hnext hreserve
    obtain ⟨hfree, hnew⟩ := hfresh m hm
    refine ⟨⟨?_, hqueued, fun k hk => ?_, handed_hand hs.handed ?_⟩, hstocked⟩
    · exact hs.refs.first hfree rfl (by funext j; simp [results, hand, haw]) hrefc
    · obtain ⟨hknown, hfreed, hout⟩ := hs.freed k hk
      have hkm : k ≠ m := fun hkm => hnew (hkm ▸ hk)
      refine ⟨Nat.lt_of_lt_of_le hknown hnext, ?_, fun hmem => hout (hreserve k hmem)⟩
      change pool.refc k = 0
      rwa [hrefc, Function.update_of_ne hkm]
    · rw [hrefc, Function.update_self]
  rcases BufferPool.allocate_cases hpool with
    ⟨m, rest, hr, rfl, rfl⟩ | ⟨hr, -, -, rfl, rfl⟩ | ⟨-, -, rfl, rfl⟩
  · obtain ⟨rfl, rfl⟩ := Prod.mk.inj heq
    refine ⟨hgiven m (.inl (by simp [hr])) rfl (Nat.le_refl _) fun k hk => ?_, rfl, haw⟩
    rw [hr]
    exact List.mem_cons_of_mem m hk
  · obtain ⟨rfl, rfl⟩ := Prod.mk.inj heq
    exact ⟨hgiven _ (.inr rfl) rfl (Nat.le_succ _) fun k hk => hk, rfl, haw⟩
  · obtain ⟨rfl, rfl⟩ := Prod.mk.inj heq
    exact ⟨hs, rfl, rfl⟩

/-! ### The functions of the pool -/

/-- A buffer is taken out of the reserve. -/
theorem Kept.pop {rest : List MemId} (hs : s.Kept l) (hr : s.pool.reserveBuffers = m :: rest) :
    Kept l { s with pool := { s.pool with reserveBuffers := rest } } := by
  refine ⟨hs.refs.congr rfl rfl rfl, hs.queued.congr rfl rfl, fun k hk => ?_, hs.handed⟩
  obtain ⟨hknown, hfree, hout⟩ := hs.freed k hk
  exact ⟨hknown, hfree, fun hmem => hout (by simp [hr, hmem])⟩

theorem Kept.not_freed (hs : s.Kept l) (hm : m ∈ s.pool.reserveBuffers) : m ∉ s.freed :=
  fun hmem => (hs.freed m hmem).2.2 hm

/-- The loop starts with too many buffers in the reserve, and everything else in order. -/
theorem Kept.shrink (n : Nat) (hs : s.Kept l) (hcounted : s.pool.Counted 0)
    (hn : s.pool.reserveBuffers.length ≤ s.pool.reserve + n) (ht : s.shrink n = some t) :
    t.Sound l := by
  induction n generalizing s with
  | zero =>
    obtain rfl := Option.some.inj ht
    exact ⟨hs, hcounted, hn⟩
  | succ n ih =>
    unfold Buffers.shrink at ht
    split at ht
    · rename_i hr
      obtain rfl := Option.some.inj ht
      exact ⟨hs, hcounted, by simp [hr]⟩
    · rename_i m rest hr
      split at ht
      · rename_i hlt
        obtain ⟨u, hu, ht⟩ := Option.bind_eq_some_iff.mp ht
        have htransit := hcounted.pop hr
        obtain ⟨hkept, -⟩ := (hs.pop hr).release htransit (hs.not_freed (by simp [hr])) hu
        have hpool := release_pool hu
        obtain ⟨hreserve, hle⟩ := BufferPool.release_room hpool
        rw [hr, List.length_cons] at hlt hn
        simp only at hreserve hle
        exact ih hkept (htransit.release hpool) (by omega) ht
      · obtain rfl := Option.some.inj ht
        exact ⟨hs, hcounted, Nat.not_lt.mp ‹_›⟩

theorem Sound.grow (grants : Nat) (hs : s.Sound l) :
    Sound l { s with pool := s.pool.grow grants } := by
  obtain ⟨hrefc, haw, hnext, hreserve⟩ := BufferPool.grow_spec grants s.pool
  refine ⟨⟨hs.refs.congr rfl (by funext j; simp [results, haw]) hrefc, hs.queued.grow grants,
    fun k hk => ?_, hs.handed⟩, hs.stocked.grow grants⟩
  obtain ⟨hknown, hfree, hout⟩ := hs.freed k hk
  refine ⟨Nat.lt_of_lt_of_le hknown hnext, by rw [← hfree]; exact congrFun hrefc k, fun hmem => ?_⟩
  rcases hreserve k hmem with hmem | hmem
  · exact hout hmem
  · exact absurd hknown (Nat.not_lt.mpr hmem)

/-- Only the configuration changes. -/
theorem Sound.configured (hs : s.Sound l) (reserve : Nat) (limit : UInt64) :
    Kept l { s with pool := { s.pool with reserve := reserve, limit := limit } } ∧
      BufferPool.Counted 0 { s.pool with reserve := reserve, limit := limit } :=
  ⟨⟨hs.refs.congr rfl rfl rfl, hs.queued.congr rfl rfl, hs.freed, hs.handed⟩,
    hs.stocked.counted.congr rfl rfl rfl rfl⟩

theorem Sound.reconfigure {reserve : Nat} {limit : UInt64} {grants : Nat} (hs : s.Sound l)
    (ht : s.reconfigure reserve limit grants = some t) : t.Sound l := by
  obtain ⟨u, hu, rfl⟩ := Option.map_eq_some_iff.mp ht
  obtain ⟨hkept, hcounted⟩ := hs.configured reserve limit
  exact (hkept.shrink _ hcounted (Nat.le_add_left _ _) hu).grow grants

/-! ### The functions of the handles -/

theorem Sound.point (hs : s.Sound l) (hl : ∀ m, l'.count m + (if o = some m then 1 else 0) =
    l.count m + if s.handle h = some m then 1 else 0) : (s.point h o).Sound l' :=
  ⟨⟨hs.refs.setHandle rfl rfl rfl hl, hs.queued, hs.freed, hs.handed⟩, hs.stocked⟩

/-- What the handle pointed to is in other hands now. -/
theorem Sound.clear (hs : s.Sound l) (h : HandleId) :
    (s.point h none).Sound ((s.handle h).toList ++ l) :=
  hs.point fun m => by simp [count_toList, Nat.add_comm]

/-- A handle that was null takes over a pointer. -/
theorem Sound.set (hs : s.Sound (o.toList ++ l)) (hnull : s.handle h = none) : (s.point h o).Sound l :=
  hs.point fun m => by simp [count_toList, hnull, Nat.add_comm]

/-- After `unref` the handle may still point to the buffer, until it is overwritten. -/
theorem Sound.unref (hs : s.Sound l) (ht : s.unref h = some t) :
    ∃ u : Buffers, u.Sound l ∧ u.handle = Function.update s.handle h none ∧
      (∀ o, t.point h o = u.point h o) ∧ (∀ k, k ≠ h → t.handle k = u.handle k) ∧
      ∀ m, t.handle h = some m → u.pool.refc m ≠ 0 := by
  have hclear := hs.clear h
  unfold Buffers.unref at ht
  cases hh : s.handle h with
  | none =>
    simp only [hh] at ht
    obtain rfl := Option.some.inj ht
    refine ⟨s, hs, ?_, fun _ => rfl, fun _ _ => rfl, fun m hm => ?_⟩
    · rw [← hh, Function.update_eq_self]
    · simp [hh] at hm
  | some m =>
    rw [hh] at hclear
    simp only [hh] at ht
    split at ht
    · obtain ⟨hsound, hhandle⟩ := hclear.fetchSub ht
      refine ⟨t, hsound, hhandle, fun _ => rfl, fun _ _ => rfl, fun k hk => ?_⟩
      simp [hhandle, Buffers.point] at hk
    · rename_i hmany
      unfold Buffers.fetchSub at ht
      dsimp only at ht
      rw [Option.ite_none_left_eq_some, if_neg hmany] at ht
      obtain ⟨hne, ht⟩ := ht
      obtain rfl := Option.some.inj ht
      have hsub : (s.point h none).fetchSub m = some
          { s.point h none with pool :=
            { s.pool with refc := Function.update s.pool.refc m (s.pool.refc m - 1) } } :=
        (if_neg hne).trans (if_neg hmany)
      obtain ⟨hsound, hhandle⟩ := hclear.fetchSub hsub
      refine ⟨_, hsound, hhandle, fun o => ?_, fun k hk => ?_, fun k hk => ?_⟩
      · simp [Buffers.point]
      · simp [Buffers.point, hk]
      · obtain rfl : m = k := Option.some.inj (hh.symm.trans hk)
        simp only [Function.update_self]
        omega

theorem Sound.assign (hs : s.Sound (o.toList ++ l)) (ht : s.assign h o = some t) : t.Sound l := by
  obtain ⟨v, hv, rfl⟩ := Option.map_eq_some_iff.mp ht
  obtain ⟨u, hu, hhandle, hpoint, -, -⟩ := hs.unref hv
  rw [hpoint]
  exact hu.set (by simp [hhandle])

/-- A handle that was null points to a buffer that somebody holds. -/
theorem Sound.ref (hs : s.Sound l) (hnull : s.handle h = none)
    (ht : (s.point h o).ref h = some t) : t.Sound l := by
  unfold Buffers.ref at ht
  rw [show (s.point h o).handle h = o from Function.update_self _ _ _] at ht
  cases o with
  | none =>
    obtain rfl := Option.some.inj ht
    exact hs.set (o := none) hnull
  | some m =>
    dsimp only at ht
    rw [Option.ite_none_left_eq_some] at ht
    obtain ⟨hne, ht⟩ := ht
    obtain rfl := Option.some.inj ht
    have hne : s.pool.refc m ≠ 0 := hne
    have hshared : Sound (m :: l) { s with pool :=
        { s.pool with refc := Function.update s.pool.refc m (s.pool.refc m + 1) } } := by
      refine ⟨⟨hs.refs.recount rfl rfl fun k => ?_, hs.queued.congr rfl rfl, fun k hk => ?_, hs.handed⟩,
        hs.stocked.counted.share (by omega), hs.stocked.room⟩
      · by_cases hk : k = m
        · simp only [hk, Function.update_self, List.count_cons_self]
          omega
        · simp only [Function.update_of_ne hk, List.count_cons_of_ne (Ne.symm hk)]
      · obtain ⟨hknown, hfree, hout⟩ := hs.freed k hk
        have hkm : k ≠ m := by
          rintro rfl
          exact hne hfree
        exact ⟨hknown, by simpa [hkm] using hfree, hout⟩
    exact hshared.set (o := some m) hnull

theorem Sound.copyAssign {other : HandleId} (hs : s.Sound l) (ht : s.copyAssign h other = some t) :
    t.Sound l := by
  obtain ⟨v, hv, ht⟩ := Option.bind_eq_some_iff.mp ht
  obtain ⟨u, hu, hhandle, hpoint, -, -⟩ := hs.unref hv
  rw [hpoint] at ht
  exact hu.ref (by simp [hhandle]) ht

theorem Sound.moveAssign {other : HandleId} (hs : s.Sound l) (ht : s.moveAssign h other = some t) :
    t.Sound l := by
  obtain ⟨v, hv, rfl⟩ := Option.map_eq_some_iff.mp ht
  obtain ⟨u, hu, hhandle, hpoint, hrest, -⟩ := hs.unref hv
  have hnull : u.handle h = none := by simp [hhandle]
  rw [hpoint]
  by_cases hh : other = h
  · subst hh
    have hlast : (u.point other (v.handle other)).point other none = u.point other none := by
      simp [Buffers.point]
    rw [hlast]
    exact hu.set (o := none) hnull
  · rw [hrest other hh]
    have hcomm : (u.point h (u.handle other)).point other none =
        (u.point other none).point h (u.handle other) := by
      simp only [Buffers.point, Function.update_comm hh]
    rw [hcomm]
    refine (hu.clear other).set ?_
    simp [Buffers.point, Ne.symm hh, hnull]

/-! ### The functions of the `Allocate`s -/

/-- A record is written, and the buffers stay where they are. -/
theorem Sound.settle {pool : BufferPool} {a : Allocate} (hs : s.Sound l)
    (hsame : BufferPool.Same pool s.pool) (hq : pool.Queued)
    (haw : pool.aw = Function.update s.pool.aw i a)
    (hl : ∀ m, l'.count m + (if a.result = some m then 1 else 0) =
      l.count m + if (s.pool.aw i).result = some m then 1 else 0) :
    Sound l' { s with pool := pool } := by
  refine ⟨⟨?_, hq, fun k hk => ?_, hs.handed⟩, hsame.stocked hs.stocked⟩
  · exact hs.refs.setResult (t := { s with pool := pool }) rfl (results_update haw) hsame.refc hl
  · rw [hsame.nextMem, hsame.refc, hsame.reserveBuffers]
    exact hs.freed k hk

theorem Sound.leave (hs : s.Sound l) (i : Id) {st : Stage} (hst : st = .idle ∨ st = .returned) :
    Sound l { s with pool := (s.pool.asyncFinalize i).modify i fun a => { a with stage := st } } :=
  hs.settle (BufferPool.leave_same _ _ _) ((hs.queued.but i).leave hst) (BufferPool.leave_aw _ _ _)
    fun _ => rfl

/-- An `Allocate` returns with the buffer that it was given. -/
theorem Sound.serve (hs : s.Sound (m :: l)) (hnone : (s.pool.aw i).result = none) :
    Sound l { s with
      pool := ((s.pool.modify i fun a => { a with result := some m }).asyncFinalize i).modify i
        fun a => { a with stage := .returned } } := by
  have hbut : (s.pool.modify i fun a => { a with result := some m }).QueuedBut i :=
    (hs.queued.but i).modify rfl
  have hsame := BufferPool.leave_same (s.pool.modify i fun a => { a with result := some m }) i .returned
  refine hs.settle ⟨hsame.refc, hsame.nextMem, hsame.reserveBuffers, hsame.activeBuffers, hsame.reserve⟩
    (hbut.leave (.inr rfl)) (i := i) (a := ⟨false, some m, .returned⟩) ?_ fun k => ?_
  · rw [BufferPool.leave_aw]
    simp [BufferPool.modify]
  · simp [hnone, List.count_cons]

/-- An `Allocate` without a buffer waits for one. -/
theorem Sound.suspend (hs : s.Sound l) (hi : i ∉ s.pool.pendingRequests) (hpool : (s.pool.aw i).pool)
    (hnone : (s.pool.aw i).result = none) :
    Sound l { s with
      pool := { s.pool with pendingRequests := s.pool.pendingRequests ++ [i] }.modify i
        fun a => { a with stage := .suspended } } := by
  refine hs.settle (i := i) (a := ⟨(s.pool.aw i).pool, (s.pool.aw i).result, .suspended⟩)
    ⟨rfl, rfl, rfl, rfl, rfl⟩ ?_ rfl fun _ => rfl
  refine hs.queued.write rfl (fun j hj => ?_) ?_ ⟨iff_of_true ?_ ⟨.inl rfl, hnone⟩, fun _ => hpool⟩
  · simp [BufferPool.modify, hj]
  · exact List.nodup_append.mpr ⟨hs.queued.once, List.nodup_singleton i, by
      rintro j hj k hk rfl
      exact hi (List.mem_singleton.mp hk ▸ hj)⟩
  · simp [BufferPool.modify]

theorem Sound.asyncPoll {r : Buffers × Async} (hs : s.Sound l)
    (hpool : (s.pool.aw i).result = none → (s.pool.aw i).pool) (ht : s.asyncPoll i mem = some r) :
    (answer i r).Sound l := by
  unfold Buffers.asyncPoll at ht
  split at ht
  · obtain rfl := Option.some.inj ht
    exact hs.leave i (.inr rfl)
  · rename_i hempty
    have hnone : (s.pool.aw i).result = none := by simpa using hempty
    obtain ⟨⟨u, o⟩, hu, rfl⟩ := Option.map_eq_some_iff.mp ht
    obtain ⟨hsound, -, haw⟩ := hs.allocate hu
    cases o with
    | some m => exact hsound.serve (haw ▸ hnone)
    | none =>
      dsimp only
      by_cases hi : i ∈ u.pool.pendingRequests
      · rw [LinkedList.pushBack_of_mem hi]
        exact hsound.leave i (.inl rfl)
      · rw [LinkedList.pushBack_of_not_mem hi]
        exact hsound.suspend hi (haw ▸ hpool hnone) (haw ▸ hnone)

/-- `release` writes the records of those who wait, and no others. -/
theorem fetchSub_aw (hi : i ∉ s.pool.pendingRequests) (ht : s.fetchSub m = some t) :
    t.pool.aw i = s.pool.aw i := by
  unfold fetchSub at ht
  dsimp only at ht
  rw [Option.ite_none_left_eq_some] at ht
  obtain ⟨-, ht⟩ := ht
  split at ht
  · rcases BufferPool.release_cases (release_pool ht) with ⟨r, hr, -, hpool⟩ | ⟨-, -, hpool⟩ | ⟨-, -, hpool⟩
    · have hne : i ≠ r := by
        rintro rfl
        exact hi (List.mem_of_getLast? hr)
      simp [hpool, hne]
    · rw [hpool]
    · rw [hpool]
  · obtain rfl := Option.some.inj ht
    rfl

/-- The result of an `Allocate` that nobody waits in is taken out of it. -/
theorem Sound.freeResult (hs : s.Sound l)
    (hi : (s.pool.aw i).stage = .idle ∨ (s.pool.aw i).stage = .returned)
    (hr : (s.pool.aw i).result = some m) :
    Sound (m :: l) (s.modify i fun a => { a with result := none }) := by
  have hq : (s.pool.modify i fun a => { a with result := none }).Queued := by
    refine hs.queued.record (hs.queued.not_mem_of_stage hi) (fun hw => ?_) rfl rfl
    rcases hi with hi | hi <;> simp [Allocate.Waiting, hi] at hw
  exact hs.settle ⟨rfl, rfl, rfl, rfl, rfl⟩ hq rfl fun k => by simp [hr, List.count_cons]

/-- The same, and it is dropped. -/
theorem Sound.dropResult (hs : s.Sound l)
    (hi : (s.pool.aw i).stage = .idle ∨ (s.pool.aw i).stage = .returned)
    (ht : s.dropResult i = some t) :
    t.Sound l ∧ t.pool.aw i = { s.pool.aw i with result := none } := by
  have hout := hs.queued.not_mem_of_stage hi
  unfold Buffers.dropResult at ht
  cases hr : (s.pool.aw i).result with
  | none =>
    simp only [hr] at ht
    obtain rfl := Option.some.inj ht
    exact ⟨hs, by rw [← hr]⟩
  | some m =>
    simp only [hr] at ht
    obtain ⟨hsound, -⟩ := (hs.freeResult hi hr).fetchSub ht
    refine ⟨hsound, ?_⟩
    have hframe := fetchSub_aw (s := s.modify i fun a => { a with result := none }) (i := i) hout ht
    simpa [Buffers.modify, BufferPool.modify] using hframe

/-- `operator()` notes the pool first. -/
theorem Sound.ready (hs : s.Sound l)
    (hi : (s.pool.aw i).stage = .idle ∨ (s.pool.aw i).stage = .returned) :
    Sound l (s.modify i fun a => { a with pool := true }) := by
  have hq : (s.pool.modify i fun a => { a with pool := true }).Queued := by
    refine hs.queued.record (hs.queued.not_mem_of_stage hi) (fun hw => ?_) rfl rfl
    rcases hi with hi | hi <;> simp [Allocate.Waiting, hi] at hw
  exact hs.settle ⟨rfl, rfl, rfl, rfl, rfl⟩ hq rfl fun _ => rfl

theorem modify_stage (f : Allocate → Allocate) :
    ((s.modify i f).pool.aw i).stage = (f (s.pool.aw i)).stage := by
  simp [Buffers.modify, BufferPool.modify]

/-- It leaves the record ready for the poll. -/
theorem Sound.operator (hs : s.Sound l)
    (hi : (s.pool.aw i).stage = .idle ∨ (s.pool.aw i).stage = .returned)
    (ht : s.operator i = some t) :
    t.Sound l ∧ t.pool.aw i = { pool := true, stage := (s.pool.aw i).stage } := by
  obtain ⟨hsound, haw⟩ := (hs.ready hi).dropResult (by rwa [modify_stage]) ht
  exact ⟨hsound, by simpa [Buffers.modify, BufferPool.modify] using haw⟩

/-- The result is moved out of an `Allocate` that has returned. -/
theorem Sound.taken (hs : s.Sound l) (hi : (s.pool.aw i).stage = .returned) :
    Sound ((s.pool.aw i).result.toList ++ l)
      (s.modify i fun a => { a with result := none, stage := .idle }) := by
  have hq : (s.pool.modify i fun a => { a with result := none, stage := .idle }).Queued :=
    hs.queued.record (hs.queued.not_mem_of_stage (.inr hi)) (by simp [Allocate.Waiting]) rfl rfl
  exact hs.settle ⟨rfl, rfl, rfl, rfl, rfl⟩ hq rfl fun m => by simp [count_toList, Nat.add_comm]

/-- Nobody uses the `Allocate` any more. -/
theorem Sound.idle (hs : s.Sound l)
    (hi : (s.pool.aw i).stage = .idle ∨ (s.pool.aw i).stage = .returned) :
    Sound l (s.modify i fun a => { a with stage := .idle }) := by
  have hq : (s.pool.modify i fun a => { a with stage := .idle }).Queued :=
    hs.queued.record (hs.queued.not_mem_of_stage hi) (by simp [Allocate.Waiting]) rfl rfl
  exact hs.settle ⟨rfl, rfl, rfl, rfl, rfl⟩ hq rfl fun _ => rfl

/-! ### Runs -/

theorem Sound.run {a : BufferOp} (hs : s.Sound []) (ha : s.Enabled a) (ht : s.run a = some t) :
    t.Sound [] := by
  cases a with
  | allocate h mem =>
    obtain ⟨⟨u, o⟩, hu, ht⟩ := Option.bind_eq_some_iff.mp ht
    exact (hs.allocate hu).1.assign ht
  | copy h other => exact hs.copyAssign ht
  | move h other => exact hs.moveAssign ht
  | drop h => exact hs.assign (o := none) ht
  | use h view =>
    obtain rfl := Option.some.inj ht
    exact ⟨⟨hs.refs.congr rfl rfl rfl, hs.queued, hs.freed, hs.handed⟩, hs.stocked⟩
  | request i mem =>
    obtain ⟨u, hu, ht⟩ := Option.bind_eq_some_iff.mp ht
    obtain ⟨r, hr, rfl⟩ := Option.map_eq_some_iff.mp ht
    obtain ⟨hsound, haw⟩ := hs.operator ha hu
    exact hsound.asyncPoll (fun _ => by simp [haw]) hr
  | run i mem =>
    obtain ⟨r, hr, rfl⟩ := Option.map_eq_some_iff.mp ht
    exact hs.asyncPoll (fun hnone => (hs.queued.aw i).pool ⟨.inr ha, hnone⟩) hr
  | resume i =>
    obtain rfl := Option.some.inj ht
    exact hs.settle ⟨rfl, rfl, rfl, rfl, rfl⟩ (hs.queued.resume i) rfl fun _ => rfl
  | cancel i =>
    obtain rfl := Option.some.inj ht
    exact hs.leave i (.inl rfl)
  | take i h => exact (hs.taken ha).assign ht
  | destroy i => exact ((hs.idle ha).dropResult (.inl (modify_stage _)) ht).1
  | reconfigure reserve limit grants => exact hs.reconfigure ht

theorem Sound.step {a : BufferOp} (hs : s.Sound []) (ht : s.step a = some t) : t.Sound [] := by
  unfold Buffers.step at ht
  rw [Option.ite_none_right_eq_some] at ht
  exact hs.run ht.1 ht.2

theorem init_sound (reserve : Nat) (limit : UInt64) (grants size : Nat) :
    (init reserve limit grants size).Sound [] := by
  have haw : (BufferPool.init reserve limit grants).aw = fun _ => {} :=
    (BufferPool.grow_spec grants _).2.1
  have hrefc : (BufferPool.init reserve limit grants).refc = fun _ => 0 :=
    (BufferPool.grow_spec grants _).1
  have hresults : (init reserve limit grants size).results = fun _ => none := by
    funext i
    simp [results, init, haw]
  refine ⟨⟨⟨?_, ?_, fun m => ?_⟩, BufferPool.init_queued _ _ _, by simp [init], by simp [init]⟩,
    BufferPool.init_stocked _ _ _⟩
  · simp [Finitely, init]
  · simp [Finitely, hresults]
  · rw [hresults]
    simp [init, hrefc, number_none]

/-! ### No operation is fatal -/

/-- A buffer that somebody points to can lose that pointer. -/
theorem Sound.fetchSub_isSome (hs : s.Sound (m :: l)) : (s.fetchSub m).isSome := by
  have hpos : s.pool.refc m ≠ 0 := by
    have hrefc := hs.refs.refc m
    rw [List.count_cons_self] at hrefc
    omega
  unfold Buffers.fetchSub
  dsimp only
  rw [if_neg hpos]
  split
  · rename_i hone
    have hfree : (Function.update s.pool.refc m (s.pool.refc m - 1)) m = 0 := by simp [hone]
    simpa [Buffers.release] using BufferPool.release_isSome hfree
  · rfl

theorem Refs.refc_ne_zero {k : HandleId} (hs : s.Refs l) (hk : s.handle k = some m) :
    s.pool.refc m ≠ 0 := by
  have hpos : 0 < number s.handle m := (number_pos hs.handles).mpr ⟨k, hk⟩
  have hrefc := hs.refc m
  omega

theorem Sound.allocate_isSome (hs : s.Sound l) (mem : Bool) : (s.allocate mem).isSome := by
  have hpool : (s.pool.allocate mem).isSome := by
    unfold BufferPool.allocate
    cases hr : s.pool.reserveBuffers with
    | cons m rest =>
      have hfree := (hs.stocked.counted.apart m (by simp [hr])).2
      simp [BufferPool.firstRef, hfree]
    | nil =>
      have hfree : s.pool.refc s.pool.nextMem = 0 := hs.stocked.counted.provide.free
      dsimp only
      split
      · rfl
      split
      · simp [BufferPool.firstRef, hfree]
      · rfl
  simpa [Buffers.allocate] using hpool

theorem Sound.unref_isSome (hs : s.Sound l) (h : HandleId) : (s.unref h).isSome := by
  have hclear := hs.clear h
  unfold Buffers.unref
  cases hh : s.handle h with
  | none => rfl
  | some m =>
    rw [hh] at hclear
    dsimp only
    split
    · exact hclear.fetchSub_isSome
    · rename_i hmany
      have hsub : s.fetchSub m = some { s with pool :=
          { s.pool with refc := Function.update s.pool.refc m (s.pool.refc m - 1) } } :=
        (if_neg (hs.refs.refc_ne_zero hh)).trans (if_neg hmany)
      simp [hsub]

theorem Sound.assign_isSome (hs : s.Sound l) (h : HandleId) (o : Option MemId) :
    (s.assign h o).isSome := by
  rw [Buffers.assign, Option.isSome_map]
  exact hs.unref_isSome h

theorem Sound.copyAssign_isSome (hs : s.Sound l) (h other : HandleId) :
    (s.copyAssign h other).isSome := by
  obtain ⟨v, hv⟩ := Option.isSome_iff_exists.mp (hs.unref_isSome h)
  obtain ⟨u, hu, hhandle, hpoint, hrest, hself⟩ := hs.unref hv
  have hheld : ∀ m, v.handle other = some m → u.pool.refc m ≠ 0 := by
    intro m hm
    by_cases hh : other = h
    · exact hself m (hh ▸ hm)
    · exact hu.refs.refc_ne_zero ((hrest other hh).symm.trans hm)
  rw [Buffers.copyAssign, hv, Option.bind_some, hpoint]
  unfold Buffers.ref
  rw [show (u.point h (v.handle other)).handle h = v.handle other from Function.update_self _ _ _]
  cases hm : v.handle other with
  | none => rfl
  | some m =>
    have hne : (u.point h (some m)).pool.refc m ≠ 0 := hheld m hm
    simp [hne]

theorem Kept.shrink_isSome (n : Nat) (hs : s.Kept l) (hcounted : s.pool.Counted 0) :
    (s.shrink n).isSome := by
  induction n generalizing s with
  | zero => rfl
  | succ n ih =>
    unfold Buffers.shrink
    split
    · rfl
    · rename_i m rest hr
      split
      · have htransit := hcounted.pop hr
        have hrelease : (Buffers.release { s with pool := { s.pool with reserveBuffers := rest } } m).isSome := by
          simpa [Buffers.release] using BufferPool.release_isSome htransit.free
        obtain ⟨u, hu⟩ := Option.isSome_iff_exists.mp hrelease
        obtain ⟨hkept, -⟩ := (hs.pop hr).release htransit (hs.not_freed (by simp [hr])) hu
        rw [hu, Option.bind_some]
        exact ih hkept (htransit.release (release_pool hu))
      · rfl

theorem Sound.dropResult_isSome (hs : s.Sound l)
    (hi : (s.pool.aw i).stage = .idle ∨ (s.pool.aw i).stage = .returned) :
    (s.dropResult i).isSome := by
  unfold Buffers.dropResult
  cases hr : (s.pool.aw i).result with
  | none => rfl
  | some m => exact (hs.freeResult hi hr).fetchSub_isSome

theorem Sound.asyncPoll_isSome (hs : s.Sound l) (i : Id) (mem : Bool) : (s.asyncPoll i mem).isSome := by
  unfold Buffers.asyncPoll
  split
  · rfl
  · rw [Option.isSome_map]
    exact hs.allocate_isSome mem

/-- Whatever makes sense can be done. -/
theorem Sound.run_isSome {a : BufferOp} (hs : s.Sound []) (ha : s.Enabled a) : (s.run a).isSome := by
  cases a with
  | allocate h mem =>
    obtain ⟨⟨u, o⟩, hu⟩ := Option.isSome_iff_exists.mp (hs.allocate_isSome mem)
    rw [Buffers.run, hu, Option.bind_some]
    exact (hs.allocate hu).1.assign_isSome h o
  | copy h other => exact hs.copyAssign_isSome h other
  | move h other =>
    rw [Buffers.run, Buffers.moveAssign, Option.isSome_map]
    exact hs.unref_isSome h
  | drop h => exact hs.assign_isSome h none
  | use h view => rfl
  | request i mem =>
    have hdrop := (hs.ready ha).dropResult_isSome (by rwa [modify_stage])
    obtain ⟨u, (hu : s.operator i = some u)⟩ := Option.isSome_iff_exists.mp hdrop
    rw [Buffers.run, hu, Option.bind_some, Option.isSome_map]
    exact (hs.operator ha hu).1.asyncPoll_isSome i mem
  | run i mem =>
    rw [Buffers.run, Option.isSome_map]
    exact hs.asyncPoll_isSome i mem
  | resume i => rfl
  | cancel i => rfl
  | take i h => exact (hs.taken ha).assign_isSome h _
  | destroy i => exact (hs.idle ha).dropResult_isSome (.inl (modify_stage _))
  | reconfigure reserve limit grants =>
    rw [Buffers.run, Buffers.reconfigure, Option.isSome_map]
    exact (hs.configured reserve limit).1.shrink_isSome _ (hs.configured reserve limit).2

/-! ### Accounting -/

/-- Where the buffers are. -/
structure Accounted (s : Buffers) : Prop where
  finite : {m | s.Held m}.Finite
  active : s.pool.activeBuffers = s.pool.reserveBuffers.length + {m | s.Held m}.ncard
  apart : ∀ m ∈ s.pool.reserveBuffers, ¬ s.Held m
  once : s.pool.reserveBuffers.Nodup
  freed : ∀ m ∈ s.freed, m ∉ s.pool.reserveBuffers ∧ ¬ s.Held m
  room : s.pool.reserveBuffers.length ≤ s.pool.reserve
  handed : ∀ e ∈ s.handed, e.refc = 1 ∧ e.view = .empty s.size

/-- The buffers that are held are those with a handle. -/
theorem Sound.accounted (hs : s.Sound []) : s.Accounted := by
  have hheld : {m | s.Held m} = s.pool.held := by
    ext m
    exact hs.refs.held_iff
  have hfree : ∀ {m}, s.pool.refc m = 0 → ¬ s.Held m := by
    intro m hm hheld
    have hpos := hs.refs.held_iff.mp hheld
    omega
  refine ⟨hheld ▸ hs.stocked.counted.finite, ?_, fun m hm => hfree (hs.stocked.counted.apart m hm).2,
    hs.stocked.counted.once, fun m hm => ?_, hs.stocked.room, hs.handed⟩
  · rw [hheld]
    exact hs.stocked.counted.active
  · obtain ⟨-, hzero, hout⟩ := hs.freed m hm
    exact ⟨hout, hfree hzero⟩

/-- In every state of every run the buffers are accounted for, and no operation is fatal. -/
theorem buffers_accounted (reserve : Nat) (limit : UInt64) (grants size : Nat) (as : List BufferOp)
    (hrun : exec (init reserve limit grants size) as = some t) :
    t.Accounted ∧ ∀ a, t.Enabled a → (t.step a).isSome := by
  have hs : t.Sound [] := Runs.exec_invariant (C := fun _ _ => True) (I := Sound [])
    (fun _ _ _ hs _ ht => hs.step ht) as _ t hrun (Runs.meets_true as _)
    (init_sound reserve limit grants size)
  refine ⟨hs.accounted, fun a ha => ?_⟩
  rw [Buffers.step, if_pos ha]
  exact hs.run_isSome ha

/-- A buffer is used, is handed to a request that waited for it, and gets a second handle. -/
theorem buffers_accounted_handover :
    ∃ t, exec (init 0 0 0 1500)
        [.allocate 0 true, .request 7 true, .use 0 { window := [71, 69, 84], capacity := 1497 },
          .resume 7, .drop 0, .run 7 true, .take 7 1, .copy 2 1, .drop 1] = some t ∧
      t.handed = [⟨0, 1, .empty 1500⟩, ⟨0, 1, .empty 1500⟩] ∧ t.Accounted := by
  have hhanded : (exec (init 0 0 0 1500)
      [.allocate 0 true, .request 7 true, .use 0 { window := [71, 69, 84], capacity := 1497 },
        .resume 7, .drop 0, .run 7 true, .take 7 1, .copy 2 1, .drop 1]).map handed =
      some [⟨0, 1, .empty 1500⟩, ⟨0, 1, .empty 1500⟩] := by decide
  obtain ⟨t, ht, hlog⟩ := Option.map_eq_some_iff.mp hhanded
  exact ⟨t, ht, hlog, (buffers_accounted 0 0 0 1500 _ ht).1⟩

end Buffers

end Jinx.Sync
