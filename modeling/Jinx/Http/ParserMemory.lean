import Jinx.Http.MessageHead
import Jinx.Http.WindowAccess

/-! The parser on the memory of its view.

    `HTTPParser` of the other modules reads lists. Here each access of `parse_start_line` and
    `parse_header` is a pointer access that has to be inside the window of the view as it is when the
    function is called; what is outside has no result. The two agree (`parse_agrees`), so nothing is
    ever read or written outside. -/

namespace Jinx.Http

open HTTPParser Incremental

namespace RawView

/-- `{p, last - p}`. -/
def address (v : RawView) (p last : Nat) : SliceConst := ⟨v.memory + p, last - p⟩

/-- `memcmp(p, "\r\n", 2) == 0`. -/
def isCRLF (v : RawView) (p : Nat) : Option Bool :=
  (v.peek p).bind fun c => (v.peek (p + 1)).map fun d => c == CR && d == LF

end RawView

/-- `HTTPParser`, with a view of its memory. -/
structure RawParser where
  buffer : RawView
  state : HTTPParserState := .uninitialized
  startLineFirst : SliceConst := {}
  startLineSecond : SliceConst := {}
  startLineThird : SliceConst := {}
  fieldName : SliceConst := {}
  fieldValue : SliceConst := {}
  result : Option HTTPParserState := none

namespace RawParser

/-- `emplace_result(st)`, then `async_return()`. -/
def finish (p : RawParser) (st : HTTPParserState) : RawParser × Async :=
  ({ p with result := some st }, .ret)

def readMore (p : RawParser) : RawParser × Async :=
  if p.buffer.capacity = 0 then p.finish .entityTooLarge else (p, .await)

/-- `_start_line_first`, without an empty line before it. -/
def firstPart (v : RawView) (p last : Nat) : Option SliceConst :=
  let first := v.address p last
  if first.size < 2 then some first
  else (v.isCRLF p).map fun b => if b then ⟨first.data + 2, first.size - 2⟩ else first

def parseStartLine (p : RawParser) : Option (RawParser × Async) := do
  let v := p.buffer
  let endOfFirst ← v.find (· != SP) v.end_ v.begin_
  let beginOfSecond ← v.find (· == SP) v.end_ endOfFirst
  let endOfSecond ← v.find (· != SP) v.end_ beginOfSecond
  let beginOfThird ← v.find (· == SP) v.end_ endOfSecond
  let endOfThird ← v.find (· != CR) v.end_ beginOfThird
  if v.end_ < endOfThird + 3 then some p.readMore
  else do
    let lf ← v.peek (endOfThird + 1)
    if lf ≠ LF then some (p.finish .badRequest)
    else do
      let end_ ← v.peek (endOfThird + 2)
      if isspace end_ then some (p.finish .badRequest)
      else
        match v.consume (endOfThird + 2 - v.begin_) with
        | none => some (p, .fatal)
        | some buffer => do
          let first ← firstPart v v.begin_ endOfFirst
          some ({ p with buffer := buffer, startLineFirst := first
                         startLineSecond := v.address beginOfSecond endOfSecond
                         startLineThird := v.address beginOfThird endOfThird
                         result := some .startLine, state := .header }, .pause)

/-- How the loop of `parse_header` ends. -/
inductive Scan where
  | more
  | bare
  /-- `end_of_value` and `end` -/
  | found (endOfValue end_ : Nat)
  deriving DecidableEq, Repr

/-- The loop of `parse_header`, from `end_of_value` on; each turn passes a line that is folded. -/
def scan : Nat → RawView → Nat → Option (RawView × Scan)
  | 0, _, _ => none
  | n + 1, v, p => do
    let endOfValue ← v.find (· != CR) v.end_ p
    if endOfValue = v.end_ ∨ endOfValue + 1 = v.end_ then some (v, .more)
    else do
      let lf ← v.peek (endOfValue + 1)
      if lf ≠ LF then some (v, .bare)
      else if endOfValue + 2 = v.end_ then some (v, .more)
      else do
        let end_ ← v.peek (endOfValue + 2)
        if end_ = SP ∨ end_ = HTAB then do
          let v ← v.poke endOfValue SP
          let v ← v.poke (endOfValue + 1) SP
          let v ← v.poke (endOfValue + 2) SP
          scan n v (endOfValue + 3)
        else some (v, .found endOfValue (endOfValue + 2))

/-- The rest of `parse_header`, for a complete line. -/
def takeField (p : RawParser) (endOfName endOfValue end_ : Nat) : Option (RawParser × Async) := do
  let v := p.buffer
  let beginOfValue := if endOfName < endOfValue then endOfName + 1 else endOfName
  let beginOfValue ← v.find isspace endOfValue beginOfValue
  let endOfValue ← v.findBack isspace beginOfValue endOfValue
  match v.consume (end_ - v.begin_) with
  | none => some (p, .fatal)
  | some buffer =>
    let p := { p with buffer := buffer, fieldName := v.address v.begin_ endOfName
                      fieldValue := v.address beginOfValue endOfValue }
    if p.fieldName.size = 0 then some ({ p with result := some .header }, .pause)
    else do
      let last ← v.peek (endOfName - 1)
      if isspace last then some (p.finish .badRequest)
      else some ({ p with result := some .header }, .pause)

/-- The end of the header: the memory before the body leaves the view. -/
def completeHeader (p : RawParser) : RawParser × Async :=
  match p.buffer.consume 2 with
  | none => (p, .fatal)
  | some buffer =>
    match buffer.cut buffer.begin_ with
    | none => (p, .fatal)
    | some buffer => { p with buffer := buffer }.finish .complete

def parseHeader (p : RawParser) : Option (RawParser × Async) := do
  let v := p.buffer
  if v.size < 2 then some p.readMore
  else do
    let c ← v.peek v.begin_
    let d ← v.peek (v.begin_ + 1)
    if c = CR ∧ d = LF then some p.completeHeader
    else do
      let endOfName ← v.find (· != COLON) v.end_ v.begin_
      let (v, x) ← scan (v.size + 1) v endOfName
      let p := { p with buffer := v }
      match x with
      | .more => some p.readMore
      | .bare => some (p.finish .badRequest)
      | .found endOfValue end_ => p.takeField endOfName endOfValue end_

def parse (p : RawParser) : Option (RawParser × Async) :=
  match p.state with
  | .startLine => p.parseStartLine
  | .header => p.parseHeader
  | .uninitialized => some (p, .throw (makeError .uninitialized))
  | _ => some (p, .ret)

/-- `handle_error` for `EndOfStream` of the stream; `nop` returns. -/
def handleEndOfStream (p : RawParser) : RawParser × Async :=
  { p with state := .endOfStream }.finish .endOfStream

/-- What the awaiter reads off the parser. -/
def report (p : RawParser) : Report :=
  match p.result with
  | some .startLine => .startLine (p.buffer.shows p.startLineFirst) (p.buffer.shows p.startLineSecond)
      (p.buffer.shows p.startLineThird)
  | some .header => .header (p.buffer.shows p.fieldName) (p.buffer.shows p.fieldValue)
  | st => .final st

/-! ### The start line -/

variable {v v' v₁ : RawView} {r : RawParser} {p : HTTPParser} {x : Scan} {w l : List Byte} {b last : Nat}
  {c d end_ : Byte}

theorem shows_address (h : b ≤ last) : v.shows (v.address b last) = v.slice b last := by
  simp only [RawView.shows, RawView.address, Nat.add_sub_cancel_left]
  rw [Nat.add_sub_cancel' h]

theorem dropCRLF_short (h : l.length < 2) : dropCRLF l = l := by
  unfold dropCRLF
  split
  · simp only [List.length_cons] at h
    omega
  · rfl

theorem dropCRLF_cons (h : ¬ (c = CR ∧ d = LF)) : dropCRLF (c :: d :: l) = c :: d :: l := by
  unfold dropCRLF
  split
  · rename_i heq
    obtain ⟨rfl, rfl, -⟩ := by simpa using heq
    exact absurd ⟨rfl, rfl⟩ h
  · rfl

/-- The slice of the first part shows it without the empty line. -/
theorem firstPart_spec (hb : v.begin_ ≤ b) (hp : b ≤ last) (hl : last ≤ v.end_) :
    ∃ s, firstPart v b last = some s ∧ v.shows s = dropCRLF (v.slice b last) := by
  by_cases hsize : last - b < 2
  · have hlen : (v.slice b last).length < 2 := by rwa [RawView.slice_length hl]
    exact ⟨_, if_pos hsize, (shows_address hp).trans (dropCRLF_short hlen).symm⟩
  · obtain ⟨c, hc, hs⟩ := RawView.slice_cons (p := b) (by omega) hl hb
    obtain ⟨d, hd, hs'⟩ := RawView.slice_cons (p := b + 1) (by omega) hl (by omega)
    have hcrlf : v.isCRLF b = some (c == CR && d == LF) := by
      rw [RawView.isCRLF, hc, Option.bind_some, hd]
      rfl
    have hfirst : firstPart v b last = some (if c == CR && d == LF then ⟨v.memory + b + 2, last - b - 2⟩
        else v.address b last) := by
      rw [firstPart]
      refine (if_neg hsize).trans ?_
      rw [hcrlf]
      rfl
    refine ⟨_, hfirst, ?_⟩
    by_cases h : c = CR ∧ d = LF
    · obtain ⟨rfl, rfl⟩ := h
      have hshows : v.shows (v.address (b + 2) last) = v.slice (b + 2) last :=
        shows_address (by omega)
      rw [RawView.address, ← Nat.add_assoc, Nat.sub_add_eq] at hshows
      rw [hs, hs']
      exact hshows
    · have hne : (c == CR && d == LF) = false := by simpa using h
      rw [hne, if_neg (by simp), shows_address hp, hs, hs', dropCRLF_cons h]

/-- The parser on memory is where the parser on lists is. -/
structure Refines (r : RawParser) (p : HTTPParser) : Prop where
  buffer : p.buffer = r.buffer.toView
  state : p.state = r.state
  result : p.result = r.result

/-- Two callbacks end alike; if the awaiter gets control it sees the same. -/
structure Agrees (x : RawParser × Async) (y : HTTPParser × Async) : Prop where
  async : x.2 = y.2
  refines : Refines x.1 y.1
  report : y.2 ≠ .await → x.1.report = y.1.report

theorem Refines.finish (h : Refines r p) {st : HTTPParserState} (hs : st ≠ .startLine)
    (hh : st ≠ .header) : Agrees (r.finish st) ({ p with result := some st }, .ret) := by
  refine ⟨rfl, ⟨h.buffer, h.state, rfl⟩, fun _ => ?_⟩
  cases st with
  | startLine => exact absurd rfl hs
  | header => exact absurd rfl hh
  | _ => rfl

theorem Refines.readMore (h : Refines r p) : Agrees r.readMore p.readMore := by
  have hcapacity : p.buffer.capacity = r.buffer.capacity := by
    rw [h.buffer]
    rfl
  by_cases hc : r.buffer.capacity = 0
  · rw [RawParser.readMore, HTTPParser.readMore, if_pos hc, if_pos (hcapacity.trans hc)]
    exact h.finish (by simp) (by simp)
  · rw [RawParser.readMore, HTTPParser.readMore, if_neg hc, if_neg (hcapacity.trans_ne hc)]
    exact ⟨rfl, h, fun hne => absurd rfl hne⟩

/-- The pointers into the start line, in their order, and what lies between them. -/
structure Parts (v : RawView) (e₁ b₂ e₂ b₃ e₃ : Nat) : Prop where
  first : v.find (· != SP) v.end_ v.begin_ = some e₁
  second : v.find (· == SP) v.end_ e₁ = some b₂
  endOfSecond : v.find (· != SP) v.end_ b₂ = some e₂
  third : v.find (· == SP) v.end_ e₂ = some b₃
  endOfThird : v.find (· != CR) v.end_ b₃ = some e₃
  le : v.begin_ ≤ e₁ ∧ e₁ ≤ b₂ ∧ b₂ ≤ e₂ ∧ e₂ ≤ b₃ ∧ b₃ ≤ e₃ ∧ e₃ ≤ v.end_
  split : splitStartLine (v.rest v.begin_) =
    (v.slice v.begin_ e₁, v.slice b₂ e₂, v.slice b₃ e₃, v.slice e₃ v.end_)

theorem parts (v : RawView) : ∃ e₁ b₂ e₂ b₃ e₃, Parts v e₁ b₂ e₂ b₃ e₃ := by
  have hend := Nat.le_refl v.end_
  obtain ⟨e₁, h₁, hle₁, hl₁, hs₁, hd₁⟩ :=
    RawView.find_spec (q := (· != SP)) (Nat.le_refl _) v.begin_le hend
  obtain ⟨b₂, h₂, hle₂, hl₂, -, hd₂⟩ := RawView.find_spec (q := (· == SP)) hle₁ hl₁ hend
  obtain ⟨e₂, h₃, hle₃, hl₃, hs₃, hd₃⟩ :=
    RawView.find_spec (q := (· != SP)) (Nat.le_trans hle₁ hle₂) hl₂ hend
  obtain ⟨b₃, h₄, hle₄, hl₄, -, hd₄⟩ :=
    RawView.find_spec (q := (· == SP)) (p := e₂) (by omega) hl₃ hend
  obtain ⟨e₃, h₅, hle₅, hl₅, hs₅, hd₅⟩ :=
    RawView.find_spec (q := (· != CR)) (p := b₃) (by omega) hl₄ hend
  refine ⟨e₁, b₂, e₂, b₃, e₃, h₁, h₂, h₃, h₄, h₅, ⟨hle₁, hle₂, hle₃, hle₄, hle₅, hl₅⟩, ?_⟩
  rw [splitStartLine, RawView.rest_eq, ← hs₁, ← hd₁, ← hd₂, ← hs₃, ← hd₃, ← hd₄, ← hs₅, ← hd₅]

theorem parseStartLine_short {first second third : List Byte}
    (hs : splitStartLine p.buffer.window = (first, second, third, l)) (hl : l.length < 3) :
    p.parseStartLine = p.readMore := by
  rw [HTTPParser.parseStartLine, hs]
  rcases l with _ | ⟨c, _ | ⟨lf, _ | ⟨end_, l⟩⟩⟩
  · rfl
  · rfl
  · rfl
  · simp only [List.length_cons] at hl
    omega

/-- What is consumed of a window is consumed of the memory. -/
theorem Refines.consume (h : Refines r p) {m n : Nat} (hm : m = n) (hn : n ≤ r.buffer.size) :
    ∃ buffer, r.buffer.consume n = some buffer ∧ p.buffer.consume m = some buffer.toView ∧
      buffer.memory = r.buffer.memory ∧ buffer.bytes = r.buffer.bytes ∧ buffer.end_ = r.buffer.end_ ∧
      buffer.begin_ = r.buffer.begin_ + n := by
  have hview := RawView.toView_consume r.buffer n
  have hconsume : r.buffer.consume n = some _ := dif_neg (Nat.not_lt.mpr hn)
  rw [hconsume, Option.map_some] at hview
  exact ⟨_, hconsume, by rw [hm, h.buffer, hview], rfl, rfl, rfl, rfl⟩

theorem parseStartLine_agrees (h : Refines r p) :
    ∃ x, r.parseStartLine = some x ∧ Agrees x p.parseStartLine := by
  obtain ⟨e₁, b₂, e₂, b₃, e₃, hparts⟩ := parts r.buffer
  have hwindow : p.buffer.window = r.buffer.rest r.buffer.begin_ := by
    rw [h.buffer]
    rfl
  have hsplit := hparts.split
  rw [← hwindow] at hsplit
  obtain ⟨hle₁, hle₂, hle₃, hle₄, hle₅, hle₆⟩ := hparts.le
  have hlen := RawView.slice_length (v := r.buffer) (p := e₃) (Nat.le_refl _)
  rw [RawParser.parseStartLine]
  simp only [Option.bind_eq_bind, hparts.first, hparts.second, hparts.endOfSecond, hparts.third,
    hparts.endOfThird, Option.bind_some]
  by_cases hshort : r.buffer.end_ < e₃ + 3
  · rw [if_pos hshort, parseStartLine_short hsplit (by omega)]
    exact ⟨_, rfl, h.readMore⟩
  · rw [if_neg hshort]
    obtain ⟨c, -, hs₁⟩ := RawView.rest_cons (v := r.buffer) (p := e₃) (by omega) (by omega)
    obtain ⟨lf, hlf, hs₂⟩ := RawView.rest_cons (v := r.buffer) (p := e₃ + 1) (by omega) (by omega)
    obtain ⟨end_, hend, hs₃⟩ := RawView.rest_cons (v := r.buffer) (p := e₃ + 2) (by omega) (by omega)
    rw [← RawView.rest_eq, hs₁, hs₂, hs₃] at hsplit
    rw [HTTPParser.parseStartLine, hsplit]
    simp only [hlf, hend, Option.bind_some]
    by_cases hbare : lf ≠ LF
    · rw [if_pos hbare, if_pos hbare]
      exact ⟨_, rfl, h.finish (by simp) (by simp)⟩
    · rw [if_neg hbare, if_neg hbare]
      by_cases hspace : isspace end_
      · rw [if_pos hspace, if_pos hspace]
        exact ⟨_, rfl, h.finish (by simp) (by simp)⟩
      · rw [if_neg hspace, if_neg hspace]
        have hm : p.buffer.size - (end_ :: r.buffer.rest (e₃ + 3)).length =
            e₃ + 2 - r.buffer.begin_ := by
          rw [← hs₃, RawView.rest_length, BufferView.size, hwindow, RawView.rest_length]
          omega
        obtain ⟨buffer, hraw, hlist, hmemory, hbytes, -, -⟩ := h.consume hm (by rw [RawView.size]; omega)
        obtain ⟨first, hfirst, hshows⟩ := firstPart_spec (v := r.buffer) (Nat.le_refl _) hle₁ (by omega)
        simp only [hraw, hlist, hfirst, Option.bind_some]
        refine ⟨_, rfl, rfl, ⟨rfl, rfl, rfl⟩, fun _ => ?_⟩
        have hshow : ∀ s, buffer.shows s = r.buffer.shows s := fun s => by
          rw [RawView.shows, RawView.shows, RawView.slice, RawView.slice, hmemory, hbytes]
        simp only [RawParser.report, HTTPParser.report, hshow, hshows, shows_address hle₃,
          shows_address hle₅]

/-! ### Field lines -/

/-- The loop on memory ends as the one on lists, and has written the same. -/
def Scans (v v' : RawView) (b : Nat) (x : Scan) : Value → Prop
  | .more w => x = .more ∧ RawView.Rewrites v v' b w
  | .bare w => x = .bare ∧ RawView.Rewrites v v' b w
  | .found w rest =>
    x = .found (b + w.length) (b + w.length + 2) ∧ RawView.Rewrites v v' b (w ++ CR :: LF :: rest)

theorem Scans.after {y : Value} (h : RawView.Rewrites v v₁ b (w ++ l))
    (hs : Scans v₁ v' (b + w.length) x y) : Scans v v' b x (y.after w) := by
  cases y with
  | more u => exact ⟨hs.1, h.trans hs.2⟩
  | bare u => exact ⟨hs.1, h.trans hs.2⟩
  | found u rest =>
    obtain ⟨rfl, hs⟩ := hs
    refine ⟨by rw [List.length_append, Nat.add_assoc], ?_⟩
    rw [List.append_assoc]
    exact h.trans hs

/-- The folding of a line is written. -/
theorem fold_rewrites (h : v.rest b = c :: d :: end_ :: l) (hb : v.begin_ ≤ b) :
    ∃ v₁ v₂ v', v.poke b SP = some v₁ ∧ v₁.poke (b + 1) SP = some v₂ ∧ v₂.poke (b + 2) SP = some v' ∧
      RawView.Rewrites v v' b (SP :: SP :: SP :: l) := by
  obtain ⟨v₁, hv₁, h₁⟩ := RawView.poke_rewrites (d := SP) h hb
  have hrest₁ : v₁.rest (b + 1) = d :: end_ :: l := by
    rw [← RawView.rest_drop, h₁.rest]
    rfl
  obtain ⟨v₂, hv₂, h₂⟩ := RawView.poke_rewrites (d := SP) hrest₁ (by rw [h₁.begin_]; omega)
  have h₁₂ := RawView.Rewrites.trans (x := [SP]) h₁ h₂
  have hrest₂ : v₂.rest (b + 2) = end_ :: l := by
    rw [← RawView.rest_drop, h₁₂.rest]
    rfl
  obtain ⟨v', hv', h₃⟩ := RawView.poke_rewrites (d := SP) hrest₂ (by rw [h₁₂.begin_]; omega)
  exact ⟨v₁, v₂, v', hv₁, hv₂, hv', RawView.Rewrites.trans (x := [SP, SP]) h₁₂ h₃⟩

/-- A turn of the loop first passes a text, up to a CR or to the end of the window. -/
theorem text_spec (hb : v.begin_ ≤ b) (hp : b ≤ v.end_) :
    ∃ e w, v.find (· != CR) v.end_ b = some e ∧ b + w.length = e ∧ e ≤ v.end_ ∧
      RawView.Rewrites v v b (w ++ v.rest e) ∧
      scanValue (v.rest b) = (scanValue (v.rest e)).after w ∧ (e < v.end_ → ∃ l, v.rest e = CR :: l) := by
  obtain ⟨e, he, hbe, hel, hs, hd⟩ := RawView.find_spec (q := (· != CR)) hb hp (Nat.le_refl _)
  have hsplit : v.rest b = v.slice b e ++ v.rest e := by
    rw [RawView.rest_eq, RawView.rest_eq, hs, hd, List.takeWhile_append_dropWhile]
  have hlen := RawView.slice_length (p := b) hel
  refine ⟨e, v.slice b e, he, by omega, hel, ?_, ?_, fun hlt => ?_⟩
  · rw [← hsplit]
    exact .refl hp
  · rw [hsplit, scanValue_text]
    intro c hc
    rw [hs] at hc
    simpa using List.mem_takeWhile_imp hc
  · obtain ⟨c, -, hc⟩ := RawView.slice_cons hlt (Nat.le_refl _) (Nat.le_trans hb hbe)
    have hnot := List.head?_dropWhile_not (· != CR) (v.slice b v.end_)
    rw [← hd, hc] at hnot
    obtain rfl : c = CR := by simpa using hnot
    exact ⟨_, hc⟩

/-- A turn that has passed a text, with less than a CRLF behind it. -/
theorem scan_short {n e : Nat} (he : v.find (· != CR) v.end_ b = some e) (hel : e ≤ v.end_)
    (hend : v.end_ ≤ e + 1) : scan (n + 1) v b = some (v, .more) := by
  simp only [scan, he, Option.bind_eq_bind, Option.bind_some]
  exact if_pos (by omega)

/-- A turn that has passed a text, with a CR and another byte behind it. -/
theorem scan_line {n e : Nat} (he : v.find (· != CR) v.end_ b = some e) (hb : v.begin_ ≤ e)
    (h : v.rest e = c :: d :: l) :
    scan (n + 1) v b =
      if d ≠ LF then some (v, .bare)
      else if e + 2 = v.end_ then some (v, .more)
      else (v.peek (e + 2)).bind fun end_ =>
        if end_ = SP ∨ end_ = HTAB then
          (v.poke e SP).bind fun v => (v.poke (e + 1) SP).bind fun v =>
            (v.poke (e + 2) SP).bind fun v => scan n v (e + 3)
        else some (v, .found e (e + 2)) := by
  obtain ⟨hlt, -, h₁⟩ := RawView.peek_of_slice h (Nat.le_refl _) hb
  obtain ⟨hlt₁, hd, -⟩ := RawView.peek_of_slice h₁ (Nat.le_refl _) (by omega)
  simp only [scan, he, hd, Option.bind_eq_bind, Option.bind_some]
  exact if_neg (by omega)

/-- The loop ends. Each turn begins behind what the one before has written. -/
theorem scan_spec {n : Nat} (hn : v.end_ - b < n) (hb : v.begin_ ≤ b) (hp : b ≤ v.end_) :
    ∃ v' x, scan n v b = some (v', x) ∧ Scans v v' b x (scanValue (v.rest b)) := by
  induction n generalizing v b with
  | zero => omega
  | succ n ih =>
    obtain ⟨e, w, he, rfl, hel, hpass, htext, hcr⟩ := text_spec hb hp
    suffices h : ∃ v' x, scan (n + 1) v b = some (v', x) ∧
        Scans v v' (b + w.length) x (scanValue (v.rest (b + w.length))) by
      obtain ⟨v', x, hscan, hscans⟩ := h
      exact ⟨v', x, hscan, htext ▸ hscans.after hpass⟩
    have hbe : b ≤ b + w.length := Nat.le_add_right ..
    generalize b + w.length = e at *
    have hlen := v.rest_length e
    have hrefl := RawView.Rewrites.refl hel
    rcases hr : v.rest e with _ | ⟨c, _ | ⟨lf, l⟩⟩
    · rw [hr] at hlen hrefl
      exact ⟨v, .more, scan_short he hel (by simp only [List.length_nil] at hlen; omega), rfl, hrefl⟩
    all_goals
      obtain ⟨l', hl'⟩ := hcr (by rw [hr, List.length_cons] at hlen; omega)
      obtain rfl : c = CR := (List.cons.inj (hr.symm.trans hl')).1
      rw [hr, List.length_cons] at hlen
      rw [hr] at hrefl
    · exact ⟨v, .more, scan_short he hel (by simp only [List.length_nil] at hlen; omega), rfl, hrefl⟩
    rw [scan_line he (Nat.le_trans hb hbe) hr]
    by_cases hbare : lf ≠ LF
    · rw [if_pos hbare, scanValue_bare hbare]
      exact ⟨v, .bare, rfl, rfl, hrefl⟩
    obtain rfl : lf = LF := not_not.mp hbare
    rw [if_neg hbare]
    rcases l with _ | ⟨end_, l⟩
    · rw [if_pos (by simp only [List.length_cons, List.length_nil] at hlen; omega)]
      exact ⟨v, .more, rfl, rfl, hrefl⟩
    have hdrop : v.rest (e + 2) = end_ :: l := by
      rw [← RawView.rest_drop, hr]
      rfl
    obtain ⟨hlt, hpeek, -⟩ := RawView.peek_of_slice hdrop (Nat.le_refl _) (by omega)
    rw [if_neg (by omega), hpeek, Option.bind_some]
    by_cases hfold : end_ = SP ∨ end_ = HTAB
    · obtain ⟨v₁, v₂, v₃, hv₁, hv₂, hv₃, hwrite⟩ := fold_rewrites hr (Nat.le_trans hb hbe)
      have hrest : v₃.rest (e + 3) = l := by
        rw [← RawView.rest_drop, hwrite.rest]
        rfl
      have hbegin := hwrite.begin_
      have hend := hwrite.end_
      obtain ⟨v', x, hscan, hscans⟩ := ih (v := v₃) (b := e + 3) (by omega) (by omega) (by omega)
      rw [if_pos hfold, hv₁, Option.bind_some, hv₂, Option.bind_some, hv₃, Option.bind_some,
        scanValue_fold hfold]
      rw [hrest] at hscans
      exact ⟨v', x, hscan, hscans.after (w := [SP, SP, SP]) hwrite⟩
    · rw [if_neg hfold, scanValue_found hfold]
      exact ⟨v, _, rfl, rfl, hrefl⟩

/-- The value is trimmed at both ends without leaving it. -/
theorem trim_spec {value : List Byte} (hb : v.begin_ ≤ b) (hl : b + value.length ≤ v.end_)
    (hvalue : v.slice b (b + value.length) = value) :
    ∃ p last, v.find isspace (b + value.length) (if b < b + value.length then b + 1 else b) = some p ∧
      v.findBack isspace p (b + value.length) = some last ∧ p ≤ last ∧ v.slice p last = trim value := by
  have hcolon : v.slice (if b < b + value.length then b + 1 else b) (b + value.length) =
      value.drop 1 := by
    split
    · rw [← RawView.slice_drop, hvalue]
    · rename_i hlt
      obtain rfl : value = [] := List.length_eq_zero_iff.mp (by omega)
      exact RawView.slice_nil v (Nat.le_refl _)
  generalize hp₀ : (if b < b + value.length then b + 1 else b) = p₀ at *
  have hp₀' : v.begin_ ≤ p₀ ∧ p₀ ≤ b + value.length := by
    split at hp₀ <;> omega
  obtain ⟨p, hp, hle, hpl, -, hs⟩ := RawView.find_spec (q := isspace) hp₀'.1 hp₀'.2 hl
  have hfirst : v.begin_ ≤ p := by omega
  obtain ⟨last, hlast, hle', hs'⟩ := RawView.findBack_eq (q := isspace) hfirst hpl hl
  refine ⟨p, last, hp, hlast, hle', ?_⟩
  rw [hs', hs, hcolon, trim]

/-- The last byte of a name that is not empty. -/
theorem name_last (hb : v.begin_ < b) (hl : b ≤ v.end_) :
    ∃ c, v.peek (b - 1) = some c ∧ (v.slice v.begin_ b).getLast? = some c := by
  obtain ⟨b, rfl⟩ : ∃ n, b = n + 1 := ⟨b - 1, by omega⟩
  obtain ⟨c, hc, hs⟩ := RawView.slice_concat (v := v) (Nat.lt_succ_iff.mp hb) hl (Nat.le_refl _)
  exact ⟨c, hc, by rw [hs, List.getLast?_concat]⟩

theorem takeField_agrees (h : Refines r p) {n : Nat} {name value rest : List Byte}
    (hb : r.buffer.begin_ ≤ n) (hn : n ≤ r.buffer.end_) (hname : r.buffer.slice r.buffer.begin_ n = name)
    (hvalue : r.buffer.rest n = value ++ CR :: LF :: rest) :
    ∃ x, r.takeField n (n + value.length) (n + value.length + 2) = some x ∧
      Agrees x (p.takeField name value rest) := by
  have hlen := r.buffer.rest_length n
  rw [hvalue] at hlen
  simp only [List.length_append, List.length_cons] at hlen
  have hslice : r.buffer.slice n (n + value.length) = value := by
    rw [← RawView.slice_take r.buffer n r.buffer.end_ _ (by omega), ← RawView.rest_eq, hvalue]
    exact List.take_left' rfl
  obtain ⟨b, last, hfind, hback, hle, htrim⟩ := trim_spec hb (by omega) hslice
  have hm : p.buffer.size - rest.length = n + value.length + 2 - r.buffer.begin_ := by
    rw [h.buffer, RawView.toView_size, RawView.size]
    omega
  obtain ⟨buffer, hraw, hlist, hmemory, hbytes, -, -⟩ := h.consume hm (by rw [RawView.size]; omega)
  have hshow : ∀ s, buffer.shows s = r.buffer.shows s := fun s => by
    rw [RawView.shows, RawView.shows, RawView.slice, RawView.slice, hmemory, hbytes]
  simp only [RawParser.takeField, HTTPParser.takeField, Option.bind_eq_bind, hfind, hback, hraw, hlist,
    Option.bind_some]
  have hempty : (r.buffer.address r.buffer.begin_ n).size = n - r.buffer.begin_ := rfl
  rw [hempty]
  by_cases hne : n - r.buffer.begin_ = 0
  · obtain rfl : name = [] := hname.symm.trans (RawView.slice_nil _ (by omega))
    rw [if_pos hne, List.getLast?_nil, Option.any_none, if_neg (by simp)]
    refine ⟨_, rfl, rfl, ⟨rfl, h.state, rfl⟩, fun _ => ?_⟩
    simp only [RawParser.report, HTTPParser.report, hshow, shows_address hb, hname, shows_address hle,
      htrim]
  · obtain ⟨c, hpeek, hlast⟩ := name_last (v := r.buffer) (b := n) (by omega) hn
    rw [hname] at hlast
    rw [if_neg hne, hpeek, Option.bind_some, hlast, Option.any_some]
    by_cases hspace : isspace c = true
    · rw [if_pos hspace, if_pos hspace]
      exact ⟨_, rfl, rfl, ⟨rfl, h.state, rfl⟩, fun _ => rfl⟩
    · rw [if_neg hspace, if_neg hspace]
      refine ⟨_, rfl, rfl, ⟨rfl, h.state, rfl⟩, fun _ => ?_⟩
      simp only [RawParser.report, HTTPParser.report, hshow, shows_address hb, hname, shows_address hle,
        htrim]

/-- The memory before the body is cut off. -/
theorem completeHeader_agrees (h : Refines r p) (hsize : 2 ≤ r.buffer.size) :
    Agrees r.completeHeader p.completeHeader := by
  obtain ⟨buffer, hraw, hlist, -, -, -, -⟩ := h.consume rfl hsize
  obtain ⟨cut, hcut⟩ : ∃ cut, buffer.cut buffer.begin_ = some cut := ⟨_, dif_neg (Nat.lt_irrefl _)⟩
  have hview : buffer.toView.cut buffer.toView.offset = some cut.toView := by
    rw [RawView.toView_offset, RawView.toView_cut, hcut, Option.map_some]
  simp only [RawParser.completeHeader, HTTPParser.completeHeader, hraw, hlist, hcut, hview]
  exact ⟨rfl, ⟨rfl, h.state, rfl⟩, fun _ => rfl⟩

/-- A window that has been rewritten from the colon on. -/
theorem Refines.rewrites (h : Refines r p) (hw : RawView.Rewrites r.buffer v' b w)
    (hb : r.buffer.begin_ ≤ b) :
    Refines { r with buffer := v' } (p.rewrite (r.buffer.slice r.buffer.begin_ b ++ w)) := by
  refine ⟨?_, h.state, h.result⟩
  rw [hw.toView hb, HTTPParser.rewrite, h.buffer]

theorem parseHeader_agrees (h : Refines r p) :
    ∃ x, r.parseHeader = some x ∧ Agrees x p.parseHeader := by
  have hwindow : p.buffer.window = r.buffer.rest r.buffer.begin_ := by
    rw [h.buffer]
    rfl
  by_cases hsize : r.buffer.size < 2
  · rw [RawParser.parseHeader, if_pos hsize, HTTPParser.parseHeader_short]
    · exact ⟨_, rfl, h.readMore⟩
    · rw [hwindow, RawView.rest_length]
      exact hsize
  have hsize' : r.buffer.begin_ + 2 ≤ r.buffer.end_ := by
    rw [RawView.size] at hsize
    omega
  obtain ⟨c, hc, hs⟩ := RawView.rest_cons (v := r.buffer) (by omega) (Nat.le_refl _)
  obtain ⟨d, hd, hs'⟩ :=
    RawView.rest_cons (v := r.buffer) (p := r.buffer.begin_ + 1) (by omega) (by omega)
  rw [RawParser.parseHeader, if_neg hsize]
  simp only [hc, hd, Option.bind_eq_bind, Option.bind_some]
  by_cases hend : c = CR ∧ d = LF
  · rw [hs, hs'] at hwindow
    rw [if_pos hend, HTTPParser.parseHeader, hwindow]
    refine ⟨_, rfl, ?_⟩
    dsimp only
    rw [if_pos hend]
    exact completeHeader_agrees h (Nat.not_lt.mp hsize)
  · have hbegun : HTTPParser.Begun p.buffer.window := by
      rw [hwindow, hs, hs']
      exact ⟨c, d, _, rfl, hend⟩
    obtain ⟨n, hfind, hbn, hne, hname, hfrom⟩ :=
      RawView.find_spec (q := (· != COLON)) (Nat.le_refl _) r.buffer.begin_le (Nat.le_refl _)
    obtain ⟨v', x, hscan, hscans⟩ := scan_spec (v := r.buffer) (b := n) (n := r.buffer.size + 1)
      (by rw [RawView.size]; omega) hbn hne
    rw [if_neg hend, HTTPParser.parseHeader_begun hbegun, hwindow, hfind, Option.bind_some, hscan,
      Option.bind_some, RawView.rest_eq, ← hname, ← hfrom, ← RawView.rest_eq]
    generalize scanValue (r.buffer.rest n) = y at *
    cases y with
    | more w =>
      obtain ⟨rfl, hw⟩ := hscans
      exact ⟨_, rfl, (h.rewrites hw hbn).readMore⟩
    | bare w =>
      obtain ⟨rfl, hw⟩ := hscans
      exact ⟨_, rfl, (h.rewrites hw hbn).finish (by simp) (by simp)⟩
    | found value rest =>
      obtain ⟨rfl, hw⟩ := hscans
      refine takeField_agrees (h.rewrites hw hbn) (hw.begin_ ▸ hbn) (hw.end_ ▸ hne) ?_ hw.rest
      exact (hw.slice v'.begin_).trans (by rw [hw.begin_])

theorem parse_agrees (h : Refines r p) (hp : HTTPParser.Parsing p.state) :
    ∃ x, r.parse = some x ∧ Agrees x p.parse := by
  rw [RawParser.parse, HTTPParser.parse, ← h.state]
  rcases hp with hq | hq
  · rw [hq]
    exact parseStartLine_agrees h
  · rw [hq]
    exact parseHeader_agrees h

end RawParser

end Jinx.Http
