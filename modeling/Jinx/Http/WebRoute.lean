import Jinx.Http.HTTPParser
import Mathlib.Data.List.TakeWhile

/-! `detail::WebRoute`: from a URL to the page of a node in the route tree.

    The tree is a type of the program: a node has a `Name`, an `Index` page and a tuple of `ChildNodes`.
    `Folder::parse` and `ParseNode::parse` call each other down the tree. A slice of the URL is the list
    of its bytes; the byte behind the slice is an argument of its own, since `Folder::parse` looks at it
    when the slice is used up. -/

namespace Jinx.Http

abbrev SLASH : Byte := 47
abbrev QUESTION : Byte := 63
abbrev HASH : Byte := 35

/-- `hash_data`; `char` is signed. -/
def hashData (s : List Byte) : UInt64 :=
  s.foldl (fun value c => (value <<< 5) + value + c.toInt8.toInt64.toUInt64) 5381

/-- `hash_string`: up to the NUL. -/
def hashString (s : List Byte) : UInt64 := hashData (s.takeWhile (· != 0))

/-- A node of the route tree; `π` is the type of the pages. The root has no name in the source. -/
inductive Node (π : Type*) where
  | mk (name : List Byte) (index : π) (children : List (Node π))

variable {π : Type*}

namespace Node

def name : Node π → List Byte
  | mk name _ _ => name

def index : Node π → π
  | mk _ index _ => index

def children : Node π → List (Node π)
  | mk _ _ children => children

/-- `Name[0] == ':'`. -/
def isSlot (n : Node π) : Bool := n.name.head? == some COLON

mutual

/-- `CalculateSlotCountNode::Depth`. -/
def slotDepth : Node π → Nat
  | mk name _ children => slotDepths children + if name.head? = some COLON then 1 else 0

/-- `CalculateSlotCountChildNodes::Depth`: that of the first child. -/
def slotDepths : List (Node π) → Nat
  | [] => 0
  | n :: _ => n.slotDepth

end

/-- `CalculateSlotCountChildNodes::Count`. -/
def slotCount : List (Node π) → Nat
  | [] => 0
  | n :: others => max n.slotDepth (slotDepths others)

end Node

/-- What the route must never do. -/
inductive RouteFault where
  /-- a `jinx_assert` fails -/
  | assertion
  /-- `begin` has passed `end` -/
  | passedEnd
  /-- a write outside of the slot array -/
  | slotRange
  deriving DecidableEq, Repr

/-- `detail::WebRoute`. -/
structure WebRoute where
  slots : List (UInt64 × List Byte)
  queryString : List Byte := []
  updateSlot : Bool := true
  deriving DecidableEq, Repr

namespace WebRoute

/-- A new route for the tree below `root`. -/
def new (root : Node π) : WebRoute := { slots := .replicate (Node.slotCount root.children) (0, []) }

def freeze (r : WebRoute) : WebRoute := { r with updateSlot := false }

def setSlot (r : WebRoute) (index : Nat) (nameHash : UInt64) (value : List Byte) :
    Except RouteFault WebRoute :=
  if r.updateSlot then
    if index < r.slots.length then .ok { r with slots := r.slots.set index (nameHash, value) }
    else .error .slotRange
  else .ok r

def setQueryString (r : WebRoute) (queryString : List Byte) : WebRoute :=
  if r.updateSlot then { r with queryString := queryString } else r

end WebRoute

/-- `SpawnPage`: the page that `spawn` constructs, and its `SlotCount`. -/
abbrev Found (π : Type*) := WebRoute × Option (π × Nat)

/-- A byte that ends a segment. -/
def isDelimiter (c : Byte) : Bool := c == SLASH || c == QUESTION || c == HASH

mutual

def Folder.parse : Node π → Nat → WebRoute → List Byte → Byte → Except RouteFault (Found π)
  | .mk _ index children, slot, route, url, behind =>
    if url = [] ∧ behind = SLASH then .error .passedEnd
    else
      let l := if url.head? = some SLASH then url.tail else url
      if l = [] ∨ l.head? = some QUESTION ∨ l.head? = some HASH then
        .ok (route.setQueryString l, some (index, slot))
      else ParseNode.parse children slot route l behind

def ParseNode.parse : List (Node π) → Nat → WebRoute → List Byte → Byte →
    Except RouteFault (Found π)
  | [], _, route, _, _ => .ok (route, none)
  | node :: others, slot, route, url, behind =>
    if url = [] ∨ url.head? = some SLASH then .error .assertion
    else
      let segment := url.takeWhile fun c => !isDelimiter c
      let next := url.dropWhile fun c => !isDelimiter c
      if node.isSlot then
        match route.setSlot slot (hashString node.name.tail) segment with
        | .ok route => Folder.parse node (slot + 1) route next behind
        | .error e => .error e
      else if hashData segment = hashString node.name then Folder.parse node slot route next behind
      else ParseNode.parse others slot route url behind

end

/-- `WebRoute::route`. -/
def WebRoute.route (r : WebRoute) (root : Node π) (url : List Byte) (behind : Byte) :
    Except RouteFault (Found π) :=
  Folder.parse root 0 r url behind

/-! ### What routing is for -/

/-- '/' seg1 '/' ... '/' segn, an optional '/', and an optional suffix. The '/' of a URL without
    segments counts as the trailing one. -/
structure Url where
  segments : List (List Byte)
  trailing : Bool
  suffix : List Byte
  segments_ne : ∀ s ∈ segments, s ≠ []
  segments_plain : ∀ s ∈ segments, ∀ c ∈ s, isDelimiter c = false
  trailing_of_nil : segments = [] → trailing = true
  suffix_begin : suffix = [] ∨ suffix.head? = some QUESTION ∨ suffix.head? = some HASH

/-- What is left of a URL when some segments have been read. -/
def urlTail (segments : List (List Byte)) (trailing : Bool) (suffix : List Byte) : List Byte :=
  segments.flatMap (fun s => SLASH :: s) ++ ((if trailing then [SLASH] else []) ++ suffix)

def Url.bytes (u : Url) : List Byte := urlTail u.segments u.trailing u.suffix

/-- The way down the tree: at each level the first child that has a slot, or that has the `same` name
    as the segment. The slots on the way are collected with the names of their nodes. -/
def descend (same : List Byte → List Byte → Bool) :
    Node π → List (List Byte) → List (List Byte × List Byte) × Option (Node π)
  | node, [] => ([], some node)
  | node, s :: segments =>
    match node.children.find? fun c => c.isSlot || same c.name s with
    | none => ([], none)
    | some c =>
      let (slots, target) := descend same c segments
      (if c.isSlot then (c.name.tail, s) :: slots else slots, target)

/-- The route of a URL: the page of the node that is reached, with the slots of the way and the
    suffix as the query string; no page if there is no such node. -/
def Routed (same : List Byte → List Byte → Bool) (root : Node π) (u : Url) (behind : Byte) : Prop :=
  let (slots, target) := descend same root u.segments
  ∃ r, (WebRoute.new root).route root u.bytes behind =
      .ok (r, target.map fun n => (n.index, slots.length)) ∧
    (target.isSome → r.slots.take slots.length = slots.map (fun s => (hashString s.1, s.2)) ∧
      r.queryString = u.suffix)

/-- The names are compared by their hashes. -/
def sameHash (name s : List Byte) : Bool := hashData s == hashString name

/-! ### The descent -/

variable {same : List Byte → List Byte → Bool} {node root : Node π} {children : List (Node π)}
  {segments : List (List Byte)} {s suffix rest : List Byte} {trailing : Bool} {slot : Nat}
  {route r : WebRoute} {behind : Byte}

theorem urlTail_cons (s : List Byte) (segments : List (List Byte)) (trailing : Bool)
    (suffix : List Byte) :
    urlTail (s :: segments) trailing suffix = SLASH :: (s ++ urlTail segments trailing suffix) := by
  simp [urlTail]

/-- What follows a segment begins with a byte that ends it. -/
theorem urlTail_head (hsuffix : suffix = [] ∨ suffix.head? = some QUESTION ∨ suffix.head? = some HASH) :
    urlTail segments trailing suffix = [] ∨
      ∃ c l, urlTail segments trailing suffix = c :: l ∧ isDelimiter c = true := by
  rcases segments with _ | ⟨s, segments⟩
  · rcases trailing with _ | _
    · rcases suffix with _ | ⟨c, l⟩
      · exact .inl rfl
      · refine .inr ⟨c, l, rfl, ?_⟩
        rcases hsuffix with h | h | h
        · simp at h
        · obtain rfl : c = QUESTION := by simpa using h
          rfl
        · obtain rfl : c = HASH := by simpa using h
          rfl
    · exact .inr ⟨SLASH, suffix, rfl, rfl⟩
  · exact .inr ⟨SLASH, _, urlTail_cons s segments trailing suffix, rfl⟩

/-- The segment that `std::find_if` cuts off. -/
theorem segment_cut (hs : ∀ c ∈ s, isDelimiter c = false)
    (hrest : rest = [] ∨ ∃ c l, rest = c :: l ∧ isDelimiter c = true) :
    ((s ++ rest).takeWhile fun c => !isDelimiter c) = s ∧
      ((s ++ rest).dropWhile fun c => !isDelimiter c) = rest := by
  have hs' : ∀ c ∈ s, (!isDelimiter c) = true := by
    intro c hc
    rw [hs c hc]
    rfl
  rw [List.takeWhile_append_of_pos hs', List.dropWhile_append_of_pos hs']
  rcases hrest with rfl | ⟨c, l, rfl, hc⟩
  · simp
  · simp [hc]

/-- A URL that begins with a segment keeps the assertion of `ParseNode::parse`. -/
theorem segment_begins (hne : s ≠ []) (hs : ∀ c ∈ s, isDelimiter c = false) (rest : List Byte) :
    ¬ (s ++ rest = [] ∨ (s ++ rest).head? = some SLASH) := by
  rcases s with _ | ⟨c, s⟩
  · exact absurd rfl hne
  · rintro (h | h)
    · simp at h
    · obtain rfl : c = SLASH := by simpa using h
      exact absurd (hs SLASH List.mem_cons_self) (by decide)

/-- By induction on the children: the first one that matches is taken. -/
theorem ParseNode.parse_find (hne : s ≠ []) (hs : ∀ c ∈ s, isDelimiter c = false)
    (hrest : rest = [] ∨ ∃ c l, rest = c :: l ∧ isDelimiter c = true) :
    ParseNode.parse children slot route (s ++ rest) behind =
      match children.find? fun c => c.isSlot || sameHash c.name s with
      | none => .ok (route, none)
      | some c =>
        if c.isSlot then
          (route.setSlot slot (hashString c.name.tail) s).bind fun route =>
            Folder.parse c (slot + 1) route rest behind
        else Folder.parse c slot route rest behind := by
  obtain ⟨htake, hdrop⟩ := segment_cut hs hrest
  have hbegin := segment_begins hne hs rest
  induction children with
  | nil => rw [ParseNode.parse]; rfl
  | cons c children ih =>
    rw [ParseNode.parse, if_neg hbegin]
    dsimp only
    rw [htake, hdrop]
    by_cases hslot : c.isSlot = true
    · rw [List.find?_cons_of_pos (by simp [hslot]), if_pos hslot]
      simp only [hslot, if_true]
      cases route.setSlot slot (hashString c.name.tail) s <;> rfl
    · by_cases hhash : hashData s = hashString c.name
      · rw [List.find?_cons_of_pos (by simp [sameHash, hhash]), if_neg hslot, if_pos hhash]
        simp only [hslot, if_false, Bool.false_eq_true]
      · rw [List.find?_cons_of_neg (by simp [hslot, sameHash, hhash]), if_neg hslot, if_neg hhash, ih]

/-- The end of the URL: the page of this node. -/
theorem Folder.parse_leaf
    (hsuffix : suffix = [] ∨ suffix.head? = some QUESTION ∨ suffix.head? = some HASH)
    (hbehind : trailing = true ∨ suffix ≠ [] ∨ behind ≠ SLASH) :
    Folder.parse node slot route (urlTail [] trailing suffix) behind =
      .ok (route.setQueryString suffix, some (node.index, slot)) := by
  obtain ⟨name, index, children⟩ := node
  have hslash : suffix.head? ≠ some SLASH := by
    rcases hsuffix with rfl | h | h
    · simp
    · rw [h]
      decide
    · rw [h]
      decide
  rw [Folder.parse]
  rcases trailing with _ | _
  · have hnot : ¬ (suffix = [] ∧ behind = SLASH) := by
      rintro ⟨rfl, rfl⟩
      simp at hbehind
    simp [urlTail, hnot, hslash, hsuffix, Node.index]
  · simp [urlTail, hsuffix, Node.index]

/-- A segment is left: its slash is skipped, and the children are looked at. -/
theorem Folder.parse_segment (hne : s ≠ []) (hs : ∀ c ∈ s, isDelimiter c = false) :
    Folder.parse node slot route (urlTail (s :: segments) trailing suffix) behind =
      ParseNode.parse node.children slot route (s ++ urlTail segments trailing suffix) behind := by
  obtain ⟨name, index, children⟩ := node
  rcases s with _ | ⟨c, s⟩
  · exact absurd rfl hne
  · have hc := hs c List.mem_cons_self
    have hquestion : c ≠ QUESTION := by
      rintro rfl
      exact absurd hc (by decide)
    have hhash : c ≠ HASH := by
      rintro rfl
      exact absurd hc (by decide)
    rw [Folder.parse, urlTail_cons]
    simp [hquestion, hhash, Node.children]

theorem setSlot_of_lt (hupdate : route.updateSlot = true) (hslot : slot < route.slots.length)
    (nameHash : UInt64) (value : List Byte) :
    route.setSlot slot nameHash value =
      .ok { route with slots := route.slots.set slot (nameHash, value) } := by
  rw [WebRoute.setSlot, if_pos hupdate, if_pos hslot]

/-- What a descent from `route` at `slot` gives: the slots before are kept, those of the way follow. -/
structure Descended (route : WebRoute) (slot : Nat) (slots : List (List Byte × List Byte))
    (suffix : List Byte) (r : WebRoute) : Prop where
  slots : r.slots.take (slot + slots.length) =
    route.slots.take slot ++ slots.map fun s => (hashString s.1, s.2)
  queryString : r.queryString = suffix

/-- A slot that is written comes before those of the rest of the way. -/
theorem Descended.cons {name : List Byte} {slots : List (List Byte × List Byte)}
    (hslot : slot < route.slots.length)
    (h : Descended { route with slots := route.slots.set slot (hashString name, s) } (slot + 1) slots
      suffix r) : Descended route slot ((name, s) :: slots) suffix r := by
  refine ⟨?_, h.queryString⟩
  have htake : (route.slots.set slot (hashString name, s)).take (slot + 1) =
      route.slots.take slot ++ [(hashString name, s)] := by
    rw [List.take_add_one, List.take_set_of_le (Nat.le_refl slot)]
    simp [hslot]
  have hslots := h.slots
  rw [htake] at hslots
  rw [List.length_cons, ← Nat.add_assoc, Nat.add_right_comm, hslots]
  simp

/-- By induction on the segments: the descent of the parser is that of the tree. -/
theorem Folder.parse_descend
    (hsuffix : suffix = [] ∨ suffix.head? = some QUESTION ∨ suffix.head? = some HASH)
    (hbehind : trailing = true ∨ suffix ≠ [] ∨ behind ≠ SLASH)
    (hne : ∀ s ∈ segments, s ≠ []) (hplain : ∀ s ∈ segments, ∀ c ∈ s, isDelimiter c = false)
    (hupdate : route.updateSlot = true)
    (hroom : slot + (descend sameHash node segments).1.length ≤ route.slots.length) :
    ∃ r, Folder.parse node slot route (urlTail segments trailing suffix) behind =
        .ok (r, (descend sameHash node segments).2.map fun n =>
          (n.index, slot + (descend sameHash node segments).1.length)) ∧
      ((descend sameHash node segments).2.isSome →
        Descended route slot (descend sameHash node segments).1 suffix r) := by
  induction segments generalizing node slot route with
  | nil =>
    refine ⟨_, Folder.parse_leaf hsuffix hbehind, fun _ => ⟨?_, ?_⟩⟩
    · simp [descend, WebRoute.setQueryString, hupdate]
    · simp [WebRoute.setQueryString, hupdate]
  | cons s segments ih =>
    have hs := hplain s List.mem_cons_self
    have ih := fun {node slot route} => @ih node slot route
      (fun t ht => hne t (List.mem_cons_of_mem _ ht)) (fun t ht => hplain t (List.mem_cons_of_mem _ ht))
    rw [Folder.parse_segment (hne s List.mem_cons_self) hs,
      ParseNode.parse_find (hne s List.mem_cons_self) hs (urlTail_head hsuffix)]
    cases hfind : node.children.find? fun c => c.isSlot || sameHash c.name s with
    | none =>
      refine ⟨route, by simp [descend, hfind], fun h => ?_⟩
      simp [descend, hfind] at h
    | some c =>
      by_cases hslot : c.isSlot = true
      · have hd : descend sameHash node (s :: segments) =
            ((c.name.tail, s) :: (descend sameHash c segments).1, (descend sameHash c segments).2) := by
          simp [descend, hfind, hslot]
        rw [hd] at hroom ⊢
        simp only [List.length_cons] at hroom
        have hlt : slot < route.slots.length := by omega
        have hroom' : slot + 1 + (descend sameHash c segments).1.length ≤
            (route.slots.set slot (hashString c.name.tail, s)).length := by
          rw [List.length_set]
          omega
        obtain ⟨r, hr, hdesc⟩ := @ih c (slot + 1)
          { route with slots := route.slots.set slot (hashString c.name.tail, s) } hupdate hroom'
        refine ⟨r, ?_, fun h => (hdesc h).cons hlt⟩
        simp only [hslot, if_true, setSlot_of_lt hupdate hlt, List.length_cons]
        rw [← Nat.add_assoc, Nat.add_right_comm]
        exact hr
      · have hd : descend sameHash node (s :: segments) = descend sameHash c segments := by
          simp [descend, hfind, hslot]
        rw [hd] at hroom ⊢
        simp only [hslot, if_false, Bool.false_eq_true]
        exact ih hupdate hroom

/-- CORRECT: with names compared by their hashes, routing is the descent in the tree, if the slot array
    has room for the slots on the way and no slash follows a URL that ends with a segment. -/
theorem route_descends (root : Node π) (u : Url) (behind : Byte)
    (hroom : (descend sameHash root u.segments).1.length ≤ Node.slotCount root.children)
    (hbehind : u.trailing = true ∨ u.suffix ≠ [] ∨ behind ≠ SLASH) :
    Routed sameHash root u behind := by
  have hroom' : 0 + (descend sameHash root u.segments).1.length ≤ (WebRoute.new root).slots.length := by
    simpa [WebRoute.new] using hroom
  obtain ⟨r, hr, hdesc⟩ := Folder.parse_descend
    u.suffix_begin hbehind u.segments_ne u.segments_plain rfl hroom'
  rw [Nat.zero_add] at hr
  refine ⟨r, hr, fun h => ⟨?_, (hdesc h).queryString⟩⟩
  have hslots := (hdesc h).slots
  rwa [Nat.zero_add, List.take_zero, List.nil_append] at hslots

/-- ":a" below "b", and a URL with the segments "b", "x" and the query "?". -/
theorem route_descends_slot :
    let root : Node Nat := .mk [] 0 [.mk [98] 1 [.mk [COLON, 97] 2 []]]
    let u : Url := ⟨[[98], [120]], false, [QUESTION], by decide, by simp [isDelimiter, SLASH, QUESTION, HASH],
      by decide, by decide⟩
    Routed sameHash root u SP :=
  route_descends _ _ SP (by decide) (by decide)

/-- A segment with the name of the node has its hash. -/
theorem sameHash_self (h : ∀ c ∈ s, c ≠ 0) : sameHash s s = true := by
  have hall : ∀ c ∈ s, (c != 0) = true := by simpa using h
  simp [sameHash, hashString, List.takeWhile_eq_self_iff.mpr hall]

/-- "b!" is routed to the node "aB", which has the same hash; the slot below the third child has no
    place in the array; and a slash behind the URL is taken for a part of it. -/
theorem not_routed_by_name :
    let plain : Node Nat := .mk [] 0 [.mk [97, 66] 1 []]
    let third : Node Nat := .mk [] 0 [.mk [97] 1 [], .mk [98] 2 [], .mk [99] 3 [.mk [COLON, 97] 4 []]]
    let collision : Url := ⟨[[98, 33]], false, [], by decide, by simp [isDelimiter, SLASH, QUESTION, HASH],
      by decide, by decide⟩
    let slot : Url := ⟨[[99], [120]], false, [], by decide, by simp [isDelimiter, SLASH, QUESTION, HASH],
      by decide, by decide⟩
    let name : Url := ⟨[[97, 66]], false, [], by decide, by simp [isDelimiter, SLASH, QUESTION, HASH],
      by decide, by decide⟩
    ¬ Routed (· == ·) plain collision SP ∧ ¬ Routed (· == ·) third slot SP ∧
      ¬ Routed (· == ·) plain name SLASH := by
  intro plain third collision slot name
  refine ⟨?_, ?_, ?_⟩
  · rintro ⟨r, hr, -⟩
    have hroute : (WebRoute.new plain).route plain collision.bytes SP =
        .ok (WebRoute.new plain, some (1, 0)) := rfl
    simp [hroute] at hr
  · rintro ⟨r, hr, -⟩
    have hroute : (WebRoute.new third).route third slot.bytes SP = .error .slotRange := rfl
    simp [hroute] at hr
  · rintro ⟨r, hr, -⟩
    have hroute : (WebRoute.new plain).route plain name.bytes SLASH = .error .passedEnd := rfl
    simp [hroute] at hr

end Jinx.Http
