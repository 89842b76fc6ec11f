import Jinx.Http.RouteSlots

/-! What routing reads, for a slice of the URL of any kind.

    Here `Folder::parse` and `ParseNode::parse` have the slice only: to read a byte at its end is a
    fault. Where there is no fault they do what they do in `WebRoute`, whatever byte follows the slice.
    Whether there is one can be told from the nodes that the segments of the URL lead to, and from what is
    left of it there (`Visits`). -/

namespace Jinx.Http

/-- What the route must never do, seen from inside the slice. -/
inductive SliceFault where
  /-- a byte at the end of the slice is read -/
  | outside
  /-- a `jinx_assert` fails -/
  | assertion
  /-- a write outside of the slot array -/
  | slotRange
  deriving DecidableEq, Repr

variable {π : Type*}

mutual

def Folder.parseSlice : Node π → Nat → WebRoute → List Byte → Except SliceFault (Found π)
  | .mk _ index children, slot, route, url =>
    if url = [] then .error .outside
    else
      let l := if url.head? = some SLASH then url.tail else url
      if l = [] ∨ l.head? = some QUESTION ∨ l.head? = some HASH then
        .ok (route.setQueryString l, some (index, slot))
      else ParseNode.parseSlice children slot route l

def ParseNode.parseSlice : List (Node π) → Nat → WebRoute → List Byte → Except SliceFault (Found π)
  | [], _, route, _ => .ok (route, none)
  | node :: others, slot, route, url =>
    if url = [] ∨ url.head? = some SLASH then .error .assertion
    else
      let segment := url.takeWhile fun c => !isDelimiter c
      let next := url.dropWhile fun c => !isDelimiter c
      if node.isSlot then
        match route.setSlot slot (hashString node.name.tail) segment with
        | .ok route => Folder.parseSlice node (slot + 1) route next
        | .error _ => .error .slotRange
      else if hashData segment = hashString node.name then Folder.parseSlice node slot route next
      else ParseNode.parseSlice others slot route url

end

/-- `WebRoute::route`, on the slice alone. -/
def WebRoute.routeSlice (r : WebRoute) (root : Node π) (url : List Byte) :
    Except SliceFault (Found π) :=
  Folder.parseSlice root 0 r url

variable {node root c : Node π} {children : List (Node π)} {s url rest : List Byte} {slot k : Nat}
  {route r : WebRoute} {behind : Byte} {found : Found π}

/-! ### The two routes agree -/

mutual

theorem Folder.parse_of_parseSlice : ∀ (node : Node π) (slot : Nat) (route : WebRoute)
    (url : List Byte), Folder.parseSlice node slot route url = .ok found →
    Folder.parse node slot route url behind = .ok found
  | .mk name index children, slot, route, url, h => by
    rw [Folder.parseSlice] at h
    by_cases hne : url = []
    · simp [hne] at h
    rw [if_neg hne] at h
    rw [Folder.parse, if_neg fun hurl => hne hurl.1]
    dsimp only at h ⊢
    generalize (if url.head? = some SLASH then url.tail else url) = l at h ⊢
    by_cases hleaf : l = [] ∨ l.head? = some QUESTION ∨ l.head? = some HASH
    · rw [if_pos hleaf, Except.ok.injEq] at h
      rw [if_pos hleaf, h]
    · rw [if_neg hleaf] at h ⊢
      exact ParseNode.parse_of_parseSlice children slot route l h

/-- By induction on the tree. -/
theorem ParseNode.parse_of_parseSlice : ∀ (children : List (Node π)) (slot : Nat) (route : WebRoute)
    (url : List Byte), ParseNode.parseSlice children slot route url = .ok found →
    ParseNode.parse children slot route url behind = .ok found
  | [], slot, route, url, h => by
    simp only [ParseNode.parseSlice, Except.ok.injEq] at h
    rw [ParseNode.parse, h]
  | node :: others, slot, route, url, h => by
    rw [ParseNode.parseSlice] at h
    rw [ParseNode.parse]
    split
    · next hbegin => simp [hbegin] at h
    · next hbegin =>
      rw [if_neg hbegin] at h
      dsimp only at h ⊢
      by_cases hslot : node.isSlot = true
      · rw [if_pos hslot] at h ⊢
        cases hset : route.setSlot slot (hashString node.name.tail)
            (url.takeWhile fun c => !isDelimiter c) with
        | error e => simp [hset] at h
        | ok route =>
          rw [hset] at h
          exact Folder.parse_of_parseSlice node (slot + 1) route _ h
      · rw [if_neg hslot] at h ⊢
        by_cases hhash : hashData (url.takeWhile fun c => !isDelimiter c) = hashString node.name
        · rw [if_pos hhash] at h ⊢
          exact Folder.parse_of_parseSlice node slot route _ h
        · rw [if_neg hhash] at h ⊢
          exact ParseNode.parse_of_parseSlice others slot route url h

end

/-! ### Where routing goes -/

/-- What is left of the URL behind the slash that may begin it. -/
def skipSlash (url : List Byte) : List Byte := if url.head? = some SLASH then url.tail else url

/-- The segments of the URL lead to the node, through `k` slots, where `rest` is left: at each level to
    the first child that is a slot or has the hash of the segment. -/
inductive Visits : Node π → List Byte → Nat → Node π → List Byte → Prop where
  | here (node : Node π) (url : List Byte) : Visits node url 0 node url
  | child {node c n : Node π} {url s next rest : List Byte} {k : Nat} (hurl : skipSlash url = s ++ next)
      (hne : s ≠ []) (hs : ∀ c ∈ s, isDelimiter c = false)
      (hnext : next = [] ∨ ∃ c l, next = c :: l ∧ isDelimiter c = true)
      (hc : (node.children.find? fun c => c.isSlot || sameHash c.name s) = some c)
      (h : Visits c next k n rest) : Visits node url ((if c.isSlot then 1 else 0) + k) n rest

/-- What a node that is visited needs. -/
def MayVisit (route : WebRoute) (slot : Nat) (n : Node π) (rest : List Byte) : Prop :=
  rest ≠ [] ∧ ((∃ l, rest = SLASH :: SLASH :: l) → n.children = []) ∧
    (route.updateSlot = true → slot ≤ route.slots.length)

theorem ParseNode.parseSlice_find (hne : s ≠ []) (hs : ∀ c ∈ s, isDelimiter c = false)
    (hrest : rest = [] ∨ ∃ c l, rest = c :: l ∧ isDelimiter c = true) :
    ParseNode.parseSlice children slot route (s ++ rest) =
      match children.find? fun c => c.isSlot || sameHash c.name s with
      | none => .ok (route, none)
      | some c =>
        if c.isSlot then
          match route.setSlot slot (hashString c.name.tail) s with
          | .ok route => Folder.parseSlice c (slot + 1) route rest
          | .error _ => .error .slotRange
        else Folder.parseSlice c slot route rest := by
  obtain ⟨htake, hdrop⟩ := segment_cut hs hrest
  have hbegin := segment_begins hne hs rest
  induction children with
  | nil => rw [ParseNode.parseSlice]; rfl
  | cons c children ih =>
    rw [ParseNode.parseSlice, if_neg hbegin]
    dsimp only
    rw [htake, hdrop]
    by_cases hslot : c.isSlot = true
    · rw [List.find?_cons_of_pos (by simp [hslot]), if_pos hslot]
      simp only [hslot, if_true]
    · by_cases hhash : hashData s = hashString c.name
      · rw [List.find?_cons_of_pos (by simp [sameHash, hhash]), if_neg hslot, if_pos hhash]
        simp only [hslot, if_false, Bool.false_eq_true]
      · rw [List.find?_cons_of_neg (by simp [hslot, sameHash, hhash]), if_neg hslot, if_neg hhash, ih]

/-- The segment that a URL begins with is where it ends in only one way. -/
theorem segment_unique {s' next next' : List Byte} (hs : ∀ c ∈ s, isDelimiter c = false)
    (hnext : next = [] ∨ ∃ c l, next = c :: l ∧ isDelimiter c = true)
    (hs' : ∀ c ∈ s', isDelimiter c = false)
    (hnext' : next' = [] ∨ ∃ c l, next' = c :: l ∧ isDelimiter c = true)
    (h : s ++ next = s' ++ next') : s = s' ∧ next = next' := by
  obtain ⟨htake, hdrop⟩ := segment_cut hs hnext
  obtain ⟨htake', hdrop'⟩ := segment_cut hs' hnext'
  rw [h] at htake hdrop
  exact ⟨htake.symm.trans htake', hdrop.symm.trans hdrop'⟩

/-- What is left behind the slash begins with a slash only if the URL begins with two. -/
theorem skipSlash_slash (h : (skipSlash url).head? = some SLASH) :
    ∃ l, url = SLASH :: SLASH :: l := by
  rw [skipSlash] at h
  split at h
  · next hslash =>
    rcases url with _ | ⟨c, _ | ⟨c', l⟩⟩
    · simp at hslash
    · simp at h
    · obtain rfl : c = SLASH := by simpa using hslash
      obtain rfl : c' = SLASH := by simpa using h
      exact ⟨l, rfl⟩
  · next hslash => exact absurd h hslash

/-- A URL whose first segment is empty leads no further. -/
theorem Visits.only_here {n : Node π} (h : Visits node url k n rest)
    (hurl : ∀ s next, skipSlash url = s ++ next → s ≠ [] → (∀ c ∈ s, isDelimiter c = false) → False) :
    k = 0 ∧ n = node ∧ rest = url := by
  cases h with
  | here => exact ⟨rfl, rfl, rfl⟩
  | child hskip hne hs => exact (hurl _ _ hskip hne hs).elim

theorem mayVisit_congr {n : Node π} (hupdate : r.updateSlot = route.updateSlot)
    (hlength : r.slots.length = route.slots.length) :
    MayVisit r slot n rest ↔ MayVisit route slot n rest := by
  rw [MayVisit, MayVisit, hupdate, hlength]

/-- A first segment leads to the child that is found for it, and from there on. -/
theorem visits_segment_iff {next : List Byte} (hurl : skipSlash url = s ++ next) (hne : s ≠ [])
    (hs : ∀ c ∈ s, isDelimiter c = false)
    (hnext : next = [] ∨ ∃ c l, next = c :: l ∧ isDelimiter c = true)
    (P : Nat → Node π → List Byte → Prop) :
    (∀ k n rest, Visits node url k n rest → P k n rest) ↔ P 0 node url ∧
      ∀ c, (node.children.find? fun c => c.isSlot || sameHash c.name s) = some c →
        ∀ k n rest, Visits c next k n rest → P ((if c.isSlot then 1 else 0) + k) n rest := by
  constructor
  · intro h
    exact ⟨h 0 node url (.here node url), fun c hc k n rest hvisits =>
      h _ n rest (.child hurl hne hs hnext hc hvisits)⟩
  · rintro ⟨hhere, hchild⟩ k n rest hvisits
    cases hvisits with
    | here => exact hhere
    | child hurl' hne' hs' hnext' hc h =>
      obtain ⟨rfl, rfl⟩ := segment_unique hs hnext hs' hnext' (hurl.symm.trans hurl')
      exact hchild _ hc _ n rest h

/-- The end of the way: only this node is visited. -/
theorem visits_end_iff (hurl : ∀ s next, skipSlash url = s ++ next → s ≠ [] →
    (∀ c ∈ s, isDelimiter c = false) → False) (P : Nat → Node π → List Byte → Prop) :
    (∀ k n rest, Visits node url k n rest → P k n rest) ↔ P 0 node url := by
  refine ⟨fun h => h 0 node url (.here node url), fun h k n rest hvisits => ?_⟩
  obtain ⟨rfl, rfl, rfl⟩ := hvisits.only_here hurl
  exact h

/-- The end of the URL, or of the part of it that has segments. -/
def AtLeaf (l : List Byte) : Prop := l = [] ∨ l.head? = some QUESTION ∨ l.head? = some HASH

theorem AtLeaf.no_slash (h : AtLeaf url) : url.head? ≠ some SLASH := by
  rcases h with rfl | h | h
  · simp
  · rw [h]
    decide
  · rw [h]
    decide

theorem Folder.parseSlice_leaf (hne : url ≠ []) (hleaf : AtLeaf (skipSlash url)) :
    Folder.parseSlice node slot route url =
      .ok (route.setQueryString (skipSlash url), some (node.index, slot)) := by
  obtain ⟨name, index, children⟩ := node
  rw [Folder.parseSlice, if_neg hne]
  exact if_pos hleaf

theorem Folder.parseSlice_children (hne : url ≠ []) (hleaf : ¬ AtLeaf (skipSlash url)) :
    Folder.parseSlice node slot route url =
      ParseNode.parseSlice node.children slot route (skipSlash url) := by
  obtain ⟨name, index, children⟩ := node
  rw [Folder.parseSlice, if_neg hne]
  exact if_neg hleaf

theorem two_slashes_iff : (∃ l, url = SLASH :: SLASH :: l) ↔ (skipSlash url).head? = some SLASH := by
  refine ⟨?_, skipSlash_slash⟩
  rintro ⟨l, rfl⟩
  rfl

/-- No segment begins with a delimiter. -/
theorem no_segment {c : Byte} (hc : (skipSlash url).head? = some c) (hdelimiter : isDelimiter c = true)
    (s next : List Byte) (hurl : skipSlash url = s ++ next) (hne : s ≠ [])
    (hs : ∀ c ∈ s, isDelimiter c = false) : False := by
  cases s with
  | nil => exact hne rfl
  | cons d s =>
    rw [hurl] at hc
    obtain rfl : d = c := by simpa using hc
    rw [hs d List.mem_cons_self] at hdelimiter
    cases hdelimiter

theorem AtLeaf.no_segment (h : AtLeaf (skipSlash url)) (s next : List Byte)
    (hurl : skipSlash url = s ++ next) (hne : s ≠ []) (hs : ∀ c ∈ s, isDelimiter c = false) :
    False := by
  rcases h with hl | hc | hc
  · rw [hl] at hurl
    exact hne (List.append_eq_nil_iff.mp hurl.symm).1
  · exact Http.no_segment hc rfl s next hurl hne hs
  · exact Http.no_segment hc rfl s next hurl hne hs

/-- A child that is found is entered with its slot, if there is one. -/
theorem parseSlice_child (hs : ∀ c ∈ s, isDelimiter c = false) (hne : s ≠ []) {next : List Byte}
    (hnext : next = [] ∨ ∃ c l, next = c :: l ∧ isDelimiter c = true)
    (hc : (children.find? fun c => c.isSlot || sameHash c.name s) = some c)
    (hslot : route.updateSlot = true → slot + (if c.isSlot then 1 else 0) ≤ route.slots.length) :
    ∃ r, r.updateSlot = route.updateSlot ∧ r.slots.length = route.slots.length ∧
      ParseNode.parseSlice children slot route (s ++ next) =
        Folder.parseSlice c (slot + if c.isSlot then 1 else 0) r next := by
  rw [ParseNode.parseSlice_find hne hs hnext, hc]
  dsimp only
  by_cases hcslot : c.isSlot = true
  · simp only [hcslot, if_true] at hslot ⊢
    obtain ⟨r, hr, hupdate, hlength⟩ := setSlot_inRange hslot (hashString c.name.tail) s
    exact ⟨r, hupdate, hlength, by rw [hr]⟩
  · simp only [hcslot, if_false, Bool.false_eq_true]
    exact ⟨route, rfl, rfl, rfl⟩

/-- A slot that has no place is a fault. -/
theorem parseSlice_slotRange (hs : ∀ c ∈ s, isDelimiter c = false) (hne : s ≠ []) {next : List Byte}
    (hnext : next = [] ∨ ∃ c l, next = c :: l ∧ isDelimiter c = true)
    (hc : (children.find? fun c => c.isSlot || sameHash c.name s) = some c)
    (hslot : route.updateSlot = true → slot ≤ route.slots.length) (hupdate : route.updateSlot = true)
    (hmany : ¬ slot + (if c.isSlot then 1 else 0) ≤ route.slots.length) :
    ParseNode.parseSlice children slot route (s ++ next) = .error .slotRange := by
  have hle := hslot hupdate
  have hcslot : c.isSlot = true := by
    by_contra hcslot
    simp [hcslot, hle] at hmany
  simp only [hcslot, if_true] at hmany
  rw [ParseNode.parseSlice_find hne hs hnext, hc]
  simp [hcslot, WebRoute.setSlot, hupdate, show ¬ slot < route.slots.length from hmany]

/-- By induction on the length of the URL: there is no fault if and only if every node that is visited
    may be visited. -/
theorem Folder.parseSlice_ok_iff (n : Nat) (hn : url.length < n)
    (hslot : route.updateSlot = true → slot ≤ route.slots.length) :
    (∃ found, Folder.parseSlice node slot route url = .ok found) ↔
      ∀ k n rest, Visits node url k n rest → MayVisit route (slot + k) n rest := by
  induction n generalizing node slot route url with
  | zero => omega
  | succ n ih =>
    by_cases hempty : url = []
    · refine iff_of_false ?_ fun h => absurd hempty (h 0 node url (.here node url)).1
      obtain ⟨name, index, children⟩ := node
      simp [Folder.parseSlice, hempty]
    by_cases hleaf : AtLeaf (skipSlash url)
    · rw [Folder.parseSlice_leaf hempty hleaf, visits_end_iff hleaf.no_segment]
      refine iff_of_true ⟨_, rfl⟩ ⟨hempty, fun hslashes => ?_, hslot⟩
      rw [two_slashes_iff] at hslashes
      exact absurd hslashes hleaf.no_slash
    rw [Folder.parseSlice_children hempty hleaf]
    by_cases hslash : (skipSlash url).head? = some SLASH
    · rw [visits_end_iff (no_segment hslash rfl)]
      cases hchildren : node.children with
      | nil => exact iff_of_true ⟨_, rfl⟩ ⟨hempty, fun _ => hchildren, hslot⟩
      | cons c others =>
        refine iff_of_false (by simp [ParseNode.parseSlice, hslash]) fun h => ?_
        have hnil := h.2.1 (two_slashes_iff.mpr hslash)
        rw [hchildren] at hnil
        cases hnil
    have hhead : ∀ c, (skipSlash url).head? = some c → isDelimiter c = false := by
      intro c hc
      rw [AtLeaf, hc] at hleaf
      rw [hc] at hslash
      simp only [Option.some.injEq, not_or] at hslash hleaf
      simp [isDelimiter, hslash, hleaf.2.1, hleaf.2.2]
    obtain ⟨s, next, hurl, hne, hs, hnext⟩ := segment_split (fun hl => hleaf (.inl hl)) hhead
    have hshort : next.length < n := by
      have hpos : 0 < s.length := List.length_pos_of_ne_nil hne
      have hlength : (skipSlash url).length ≤ url.length := by
        rw [skipSlash]
        split <;> simp
      rw [hurl, List.length_append] at hlength
      omega
    have hhere : MayVisit route (slot + 0) node url :=
      ⟨hempty, fun h => absurd (two_slashes_iff.mp h) hslash, hslot⟩
    rw [visits_segment_iff hurl hne hs hnext, and_iff_right hhere, hurl]
    cases hfind : node.children.find? fun c => c.isSlot || sameHash c.name s with
    | none =>
      refine iff_of_true ?_ (by simp)
      rw [ParseNode.parseSlice_find hne hs hnext, hfind]
      exact ⟨_, rfl⟩
    | some c =>
      simp only [Option.some.injEq, forall_eq', ← Nat.add_assoc]
      by_cases hroom : route.updateSlot = true → slot + (if c.isSlot then 1 else 0) ≤ route.slots.length
      · obtain ⟨r, hupdate, hlength, hparse⟩ := parseSlice_child hs hne hnext hfind hroom
        rw [hparse, ih hshort (by rwa [hupdate, hlength])]
        simp only [mayVisit_congr hupdate hlength]
      · rw [Classical.not_imp] at hroom
        obtain ⟨hupdate, hmany⟩ := hroom
        rw [parseSlice_slotRange hs hne hnext hfind hslot hupdate hmany]
        refine iff_of_false (by simp) fun h => ?_
        exact hmany ((h 0 c next (.here c next)).2.2 hupdate)

/-- Routing reads inside of the slice, keeps its assertions, and returns a page or none. -/
def RouteSafe (r : WebRoute) (root : Node π) (url : List Byte) : Prop :=
  ∃ found, r.routeSlice root url = .ok found

/-- What is returned then is what the route returns, whatever byte follows the slice. -/
theorem RouteSafe.route_eq (h : RouteSafe r root url) :
    ∃ found, r.routeSlice root url = .ok found ∧ ∀ behind, r.route root url behind = .ok found := by
  obtain ⟨found, hfound⟩ := h
  exact ⟨found, hfound, fun behind => Folder.parse_of_parseSlice root 0 r url hfound⟩

/-- CORRECT: routing a slice is safe if and only if something is left of it at every node that its
    segments lead to, it does not begin with two slashes where the node has children, and the slots on
    the way have their places. -/
theorem route_safe_iff (r : WebRoute) (root : Node π) (url : List Byte) :
    RouteSafe r root url ↔ ∀ k n rest, Visits root url k n rest → MayVisit r k n rest := by
  have hroom : r.updateSlot = true → 0 ≤ r.slots.length := fun _ => Nat.zero_le _
  have h : RouteSafe r root url ↔ ∀ k n rest, Visits root url k n rest → MayVisit r (0 + k) n rest :=
    Folder.parseSlice_ok_iff (url.length + 1) (Nat.lt_succ_self url.length) hroom
  simpa using h

/-- The empty slice, two slashes, and a slice that ends with the name of a node. -/
theorem route_unsafe :
    let root : Node Nat := .mk [] 0 [.mk [97] 1 []]
    ¬ RouteSafe (.new root) root [] ∧ ¬ RouteSafe (.new root) root [SLASH, SLASH] ∧
      ¬ RouteSafe (.new root) root [SLASH, 97] := by
  intro root
  have hempty : (WebRoute.new root).routeSlice root [] = .error .outside := rfl
  have hslashes : (WebRoute.new root).routeSlice root [SLASH, SLASH] = .error .assertion := rfl
  have hname : (WebRoute.new root).routeSlice root [SLASH, 97] = .error .outside := rfl
  simp [RouteSafe, hempty, hslashes, hname]

end Jinx.Http
