import Jinx.Http.WebRoute

/-! The slot array of a route, against the slots that routing writes.

    `CalculateSlotCount` follows first children, from the first and the second child of the root. What a
    URL can reach is another matter: at each level the first sibling that is a slot, or has the hash of
    the segment. By induction on the length of the URL, routing goes the way of some segments, so the
    array is large enough if and only if none of these ways has more slots. -/

namespace Jinx.Http

variable {π : Type*} {node root : Node π} {children : List (Node π)} {segments : List (List Byte)}
  {s url rest : List Byte} {slot m : Nat} {route r : WebRoute} {behind : Byte}

namespace Node

mutual

/-- The nodes from this one on, from first child to first child. -/
def firstLine : Node π → List (Node π)
  | mk name index children => mk name index children :: firstLineOf children

def firstLineOf : List (Node π) → List (Node π)
  | [] => []
  | n :: _ => n.firstLine

end

mutual

/-- The depth that `CalculateSlotCountNode` computes is that of the line of first children. -/
theorem slotDepth_eq : ∀ n : Node π, n.slotDepth = n.firstLine.countP isSlot
  | mk name index children => by
    rw [slotDepth, firstLine, List.countP_cons, slotDepths_eq children]
    simp [isSlot, Node.name]

theorem slotDepths_eq : ∀ children : List (Node π),
    slotDepths children = (firstLineOf children).countP isSlot
  | [] => rfl
  | n :: _ => by rw [slotDepths, firstLineOf, slotDepth_eq n]

end

/-- The count is the larger of the depths of the first two children. -/
theorem le_slotCount {k : Nat} : k ≤ slotCount children ↔
    k = 0 ∨ ∃ n ∈ children.take 2, k ≤ n.firstLine.countP isSlot := by
  rcases children with _ | ⟨n, _ | ⟨n', others⟩⟩
  · simp [slotCount]
  · simp only [slotCount, slotDepths, slotDepth_eq, List.take, List.mem_singleton]
    simp only [exists_eq_left]
    omega
  · simp only [slotCount, slotDepths, slotDepth_eq, List.take, List.mem_cons, List.not_mem_nil, or_false]
    simp only [exists_eq_or_imp, exists_eq_left]
    omega

end Node

/-! ### The ways down the tree -/

/-- Segments that a URL can have. -/
def Segments (segments : List (List Byte)) : Prop :=
  ∀ s ∈ segments, s ≠ [] ∧ ∀ c ∈ s, isDelimiter c = false

/-- The number of slots on the way of these segments. -/
def slotsOn (node : Node π) (segments : List (List Byte)) : Nat :=
  (descend sameHash node segments).1.length

theorem slotsOn_cons : slotsOn node (s :: segments) =
    match node.children.find? fun c => c.isSlot || sameHash c.name s with
    | none => 0
    | some c => slotsOn c segments + if c.isSlot then 1 else 0 := by
  rw [slotsOn, descend]
  cases node.children.find? fun c => c.isSlot || sameHash c.name s with
  | none => rfl
  | some c => by_cases hslot : c.isSlot = true <;> simp [hslot, slotsOn]

theorem Segments.cons (hne : s ≠ []) (hs : ∀ c ∈ s, isDelimiter c = false) (h : Segments segments) :
    Segments (s :: segments) := by
  intro t ht
  rcases List.mem_cons.mp ht with rfl | ht
  · exact ⟨hne, hs⟩
  · exact h t ht

/-- No way from here has more than `m` slots, with those that were passed before. -/
def Within (node : Node π) (slot m : Nat) : Prop :=
  ∀ segments, Segments segments → slot + slotsOn node segments ≤ m

theorem Within.child {c : Node π} (h : Within node slot m) (hne : s ≠ [])
    (hs : ∀ c ∈ s, isDelimiter c = false)
    (hc : (node.children.find? fun c => c.isSlot || sameHash c.name s) = some c) :
    Within c (slot + if c.isSlot then 1 else 0) m := by
  intro segments hsegments
  have hway := h (s :: segments) (hsegments.cons hne hs)
  rw [slotsOn_cons, hc] at hway
  dsimp only at hway
  rwa [Nat.add_assoc, Nat.add_comm (if c.isSlot then 1 else 0)]

/-- What a URL can do: no slot out of range, and no page with too many slots. -/
def InRange (m : Nat) (result : Except RouteFault (Found π)) : Prop :=
  result ≠ .error .slotRange ∧
    ∀ r index slotCount, result = .ok (r, some (index, slotCount)) → slotCount ≤ m

theorem setSlot_inRange (hslot : route.updateSlot = true → slot < route.slots.length) (nameHash : UInt64)
    (value : List Byte) : ∃ r, route.setSlot slot nameHash value = .ok r ∧
      r.updateSlot = route.updateSlot ∧ r.slots.length = route.slots.length := by
  rw [WebRoute.setSlot]
  by_cases hupdate : route.updateSlot = true
  · rw [if_pos hupdate, if_pos (hslot hupdate)]
    exact ⟨_, rfl, rfl, by simp⟩
  · rw [if_neg hupdate]
    exact ⟨route, rfl, rfl, rfl⟩

/-- A byte string that does not begin with a delimiter begins with a segment. -/
theorem segment_split (hne : url ≠ []) (hhead : ∀ c, url.head? = some c → isDelimiter c = false) :
    ∃ s rest, url = s ++ rest ∧ s ≠ [] ∧ (∀ c ∈ s, isDelimiter c = false) ∧
      (rest = [] ∨ ∃ c l, rest = c :: l ∧ isDelimiter c = true) := by
  refine ⟨url.takeWhile fun c => !isDelimiter c, url.dropWhile fun c => !isDelimiter c,
    List.takeWhile_append_dropWhile.symm, ?_, fun c hc => ?_, ?_⟩
  · cases url with
    | nil => exact absurd rfl hne
    | cons c l => simp [hhead c rfl]
  · simpa using List.mem_takeWhile_imp hc
  · cases hrest : url.dropWhile fun c => !isDelimiter c with
    | nil => exact .inl rfl
    | cons c l =>
      have hc := List.head_dropWhile_not (p := fun c => !isDelimiter c) (l := url) (by simp [hrest])
      simp only [hrest, List.head_cons] at hc
      exact .inr ⟨c, l, rfl, by simpa using hc⟩

theorem inRange_found (h : slot ≤ m) (index : π) : InRange m (.ok (r, some (index, slot))) := by
  refine ⟨by simp, fun r' index' slotCount heq => ?_⟩
  obtain ⟨-, -, rfl⟩ := by simpa using heq
  exact h

theorem inRange_none : InRange (π := π) m (.ok (r, none)) := by simp [InRange]

/-- By induction on the length of the URL: routing goes a way down the tree. -/
theorem Folder.parse_inRange (n : Nat) (hn : url.length < n) (h : Within node slot m)
    (hroom : route.updateSlot = true → m ≤ route.slots.length) :
    InRange m (Folder.parse node slot route url behind) := by
  induction n generalizing node slot route url with
  | zero => omega
  | succ n ih =>
    obtain ⟨name, index, children⟩ := node
    have hslot : slot ≤ m := by simpa [slotsOn, descend] using h [] (by simp [Segments])
    rw [Folder.parse]
    split
    · simp [InRange]
    dsimp only
    have hlength : (if url.head? = some SLASH then url.tail else url).length ≤ url.length := by
      split <;> simp
    generalize (if url.head? = some SLASH then url.tail else url) = l at hlength ⊢
    split
    · exact inRange_found hslot index
    rename_i hleaf
    by_cases hslash : l.head? = some SLASH
    · -- a second slash: the children assert that there is none
      cases children with
      | nil => exact inRange_none
      | cons c others => simp [ParseNode.parse, hslash, InRange]
    have hhead : ∀ c, l.head? = some c → isDelimiter c = false := by
      intro c hc
      rw [hc] at hslash hleaf
      simp only [Option.some.injEq, not_or] at hslash hleaf
      simp [isDelimiter, hslash, hleaf.2.1, hleaf.2.2]
    obtain ⟨s, rest, rfl, hne, hs, hrest⟩ := segment_split (fun hl => hleaf (.inl hl)) hhead
    rw [ParseNode.parse_find hne hs hrest]
    have hshort : rest.length < n := by
      have hpos : 0 < s.length := List.length_pos_of_ne_nil hne
      rw [List.length_append] at hlength
      omega
    cases hfind : children.find? fun c => c.isSlot || sameHash c.name s with
    | none => exact inRange_none
    | some c =>
      have hc := h.child hne hs (c := c) hfind
      dsimp only
      by_cases hcslot : c.isSlot = true
      · rw [if_pos hcslot] at hc ⊢
        have hlt : route.updateSlot = true → slot < route.slots.length := by
          intro hupdate
          have hroom' := hroom hupdate
          have hzero := hc [] (by simp [Segments])
          omega
        obtain ⟨r, hr, hupdate, hlength⟩ := setSlot_inRange hlt (hashString c.name.tail) s
        rw [hr]
        exact ih hshort hc (by rwa [hupdate, hlength])
      · rw [if_neg hcslot] at hc ⊢
        exact ih hshort hc hroom

/-! ### When the array is large enough -/

/-- Every slot that a URL of any kind writes, and the number of slots that a page is spawned with, is in
    the range of the array, whether the slots are frozen or not. -/
def SlotsInRange (root : Node π) : Prop :=
  ∀ (r : WebRoute) (url : List Byte) (behind : Byte), r.slots.length = Node.slotCount root.children →
    InRange (Node.slotCount root.children) (r.route root url behind)

/-- A way with too many slots leads to a write behind the array, by induction on its segments. -/
theorem Folder.parse_slotRange (hsegments : Segments segments) (hupdate : route.updateSlot = true)
    (hslot : slot ≤ route.slots.length) (hmany : route.slots.length < slot + slotsOn node segments) :
    Folder.parse node slot route (urlTail segments true []) behind = .error .slotRange := by
  induction segments generalizing node slot route with
  | nil =>
    simp [slotsOn, descend] at hmany
    omega
  | cons s segments ih =>
    obtain ⟨hne, hs⟩ := hsegments s List.mem_cons_self
    rw [Folder.parse_segment hne hs, ParseNode.parse_find hne hs (urlTail_head (.inl rfl))]
    rw [slotsOn_cons] at hmany
    cases hfind : node.children.find? fun c => c.isSlot || sameHash c.name s with
    | none =>
      rw [hfind] at hmany
      dsimp only at hmany
      omega
    | some c =>
      rw [hfind] at hmany
      dsimp only at hmany ⊢
      have hrest : Segments segments := fun t ht => hsegments t (List.mem_cons_of_mem s ht)
      by_cases hcslot : c.isSlot = true
      · rw [if_pos hcslot] at hmany ⊢
        by_cases hlt : slot < route.slots.length
        · rw [setSlot_of_lt hupdate hlt]
          refine ih hrest hupdate ?_ ?_
          · rw [List.length_set]
            exact hlt
          · rw [List.length_set, Nat.add_assoc, Nat.add_comm 1]
            exact hmany
        · simp [WebRoute.setSlot, hupdate, hlt, Except.bind]
      · rw [if_neg hcslot] at hmany ⊢
        exact ih hrest hupdate hslot hmany

/-- CORRECT: the slot array is large enough for every URL if and only if no way that the segments of a
    URL can take has more slots than the line of first children from the first or the second child of
    the root. -/
theorem slotsInRange_iff (root : Node π) :
    SlotsInRange root ↔ ∀ segments, Segments segments → slotsOn root segments = 0 ∨
      ∃ n ∈ root.children.take 2, slotsOn root segments ≤ n.firstLine.countP Node.isSlot := by
  have hcount : (∀ segments, Segments segments → slotsOn root segments = 0 ∨
      ∃ n ∈ root.children.take 2, slotsOn root segments ≤ n.firstLine.countP Node.isSlot) ↔
      Within root 0 (Node.slotCount root.children) := by
    refine forall₂_congr fun segments _ => ?_
    rw [Nat.zero_add, Node.le_slotCount]
  rw [hcount]
  constructor
  · intro h segments hsegments
    by_contra hmany
    refine (h (.new root) (urlTail segments true []) SP (by simp [WebRoute.new])).1 ?_
    rw [WebRoute.route]
    exact Folder.parse_slotRange hsegments rfl (Nat.zero_le _) (by simpa [WebRoute.new] using hmany)
  · intro h r url behind hlength
    exact Folder.parse_inRange (url.length + 1) (Nat.lt_succ_self _) h fun _ => Nat.le_of_eq hlength.symm

/-- The third child of the root is a slot, which the count does not see: "/x" writes it. -/
theorem third_slot_out_of_range :
    ¬ SlotsInRange (.mk [] 0 [.mk [97] 1 [], .mk [98] 2 [], .mk [COLON, 99] 3 []]) := by
  intro h
  exact (h ⟨[], [], true⟩ [SLASH, 120] SP rfl).1 rfl

end Jinx.Http
