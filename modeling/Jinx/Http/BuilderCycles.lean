import Jinx.Http.RoundTrip

/-! One builder, used again and again.

    A cycle is an `initialize` with a view, some writes, and the end: the header may be done, and the
    builder may be sent, which finalizes it. What a cycle leaves behind is kept in `Past`: the `badbit`
    of the stream for ever, `_overflow` and the flag for the own default field until the builder is sent.
    So what the next cycle writes depends on the past. -/

namespace Jinx.Http

namespace HTTPBuilder

/-! ### Writes of all kinds -/

/-- `HTTPBuilder::overflow`, by way of `put`: a single character. -/
def putChar (b : HTTPBuilder) (cha : Byte) : Option HTTPBuilder :=
  if b.bad then some b
  else
    match b.buffer with
    | none => none
    | some view =>
      if view.capacity = 0 then some { b with overflow := true, bad := true }
      else (view.receive [cha]).map fun view' => { b with buffer := some view' }

/-- What is written at once: a text, or a single character. -/
inductive Piece where
  | block (s : List Byte)
  | char (cha : Byte)
  deriving DecidableEq, Repr

def Piece.bytes : Piece → List Byte
  | block s => s
  | char cha => [cha]

def putPiece (b : HTTPBuilder) : Piece → Option HTTPBuilder
  | .block s => b.put s
  | .char cha => b.putChar cha

def putPieces (b : HTTPBuilder) : List Piece → Option HTTPBuilder
  | [] => some b
  | p :: ps => (b.putPiece p).bind fun b => b.putPieces ps

/-- A write operation: `<<` and `put`, of which start lines are made, or a header field. -/
inductive Op where
  | piece (p : Piece)
  | field (name : List Byte) (value : List Piece)
  deriving DecidableEq, Repr

def Op.bytes : Op → List Byte
  | piece p => p.bytes
  | field name value => name ++ ascii ": " ++ value.flatMap Piece.bytes ++ lineEnd

/-- The operation writes a field of this name. -/
def Op.names (s : String) : Op → Bool
  | piece _ => false
  | field name _ => sameName name s

def write (b : HTTPBuilder) : Op → Option HTTPBuilder
  | .piece p => b.putPiece p
  | .field name value =>
    (b.puts [name, ascii ": "]).bind fun b =>
      (b.fieldBegin name).bind fun b =>
        (b.putPieces value).bind fun b => b.fieldEnd.bind fun b => b.put lineEnd

def writes (b : HTTPBuilder) : List Op → Option HTTPBuilder
  | [] => some b
  | op :: ops => (b.write op).bind fun b => b.writes ops

/-- The two builders. -/
inductive Kind where
  | request
  | response
  deriving DecidableEq, Repr

namespace Kind

/-- The name of the default field. -/
def name : Kind → String
  | request => "user-agent"
  | response => "server"

/-- The default field. -/
def line : Kind → List Byte
  | request => ascii "User-Agent: jinx\r\n"
  | response => ascii "Server: jinx\r\n"

/-- The flag that there is one already. -/
def custom : Kind → HTTPBuilder → Bool
  | request, b => b.useCustomUserAgent
  | response, b => b.useCustomServerName

/-- `write_header_done`. -/
def done : Kind → HTTPBuilder → Option (HTTPBuilder × Bool)
  | request, b => b.writeRequestDone
  | response, b => b.writeHeaderDone

theorem done_eq (k : Kind) (b : HTTPBuilder) :
    k.done b = (if k.custom b then some b else b.put k.line).bind fun b =>
      (b.put lineEnd).map fun b => (b, !b.overflow) := by
  cases k <;> rfl

end Kind

/-- One use of a builder. -/
structure Cycle where
  view : BufferView
  ops : List Op
  /-- `write_header_done` is called -/
  done : Bool
  /-- `send` is awaited, until it returns, fails or is cancelled; else the cycle is abandoned -/
  sent : Bool

/-- `initialize`, the writes and `write_header_done`, if it is called. -/
def build (k : Kind) (b : HTTPBuilder) (view : BufferView) (ops : List Op) (done : Bool) :
    Option (HTTPBuilder × Bool) :=
  ((b.init view).writes ops).bind fun b => if done then k.done b else some (b, !b.overflow)

def Cycle.run (k : Kind) (b : HTTPBuilder) (c : Cycle) : Option HTTPBuilder :=
  (build k b c.view c.ops c.done).map fun (b, _) => if c.sent then b.asyncFinalize else b

def cycles (k : Kind) : HTTPBuilder → List Cycle → Option HTTPBuilder
  | b, [] => some b
  | b, c :: history => (c.run k b).bind fun b => cycles k b history

/-! ### Single characters are texts of one byte -/

variable {b b' : HTTPBuilder} {w : List Byte} {c : Nat} {k : Kind} {ops : List Op} {op : Op}
  {view : BufferView}

theorem putChar_eq (b : HTTPBuilder) (cha : Byte) : b.putChar cha = b.put [cha] := by
  rw [putChar, put]
  by_cases hbad : b.bad = true
  · rw [if_pos hbad, if_pos hbad]
  · rw [if_neg hbad, if_neg hbad]
    cases b.buffer with
    | none => rfl
    | some view =>
      dsimp only
      by_cases hfull : view.capacity = 0
      · obtain ⟨front, window, capacity⟩ := view
        obtain rfl : capacity = 0 := hfull
        simp [BufferView.receive]
      · have hroom : 1 ≤ view.capacity := by omega
        have htake : [cha].take view.capacity = [cha] := List.take_of_length_le hroom
        have hfits : decide (view.capacity < [cha].length) = false := by simpa using hfull
        rw [if_neg hfull, htake, hfits]
        simp [hbad]

theorem putPieces_eq (b : HTTPBuilder) (ps : List Piece) :
    b.putPieces ps = b.puts (ps.map Piece.bytes) := by
  induction ps generalizing b with
  | nil => rfl
  | cons p ps ih =>
    have hp : b.putPiece p = b.put p.bytes := by
      cases p with
      | block s => rfl
      | char cha => exact putChar_eq b cha
    rw [putPieces, hp, List.map_cons, puts]
    simp only [ih]

theorem flatten_pieces (ps : List Piece) : (ps.map Piece.bytes).flatten = ps.flatMap Piece.bytes := rfl

/-! ### A stream that is good -/

theorem write_writes (h : b.Shows w c) (op : Op) :
    ∃ b', b.write op = some b' ∧ Writes b b' w op.bytes c := by
  cases op with
  | piece p =>
    obtain ⟨b', hb', hw, -⟩ := puts_writes h [p.bytes]
    refine ⟨b', ?_, by simpa [Op.bytes] using hw⟩
    rw [write, ← hb']
    have hpieces := putPieces_eq b [p]
    simpa [putPieces] using hpieces
  | field name value =>
    obtain ⟨b₁, h₁, hw₁, -⟩ := puts_writes h [name, ascii ": "]
    obtain ⟨b₂, h₂, hw₂, -⟩ := fieldBegin_writes hw₁.shows name
    have hw₁₂ := hw₁.append hw₂
    obtain ⟨b₃, h₃, hw₃, -⟩ := puts_writes hw₁₂.shows (value.map Piece.bytes)
    have hw₁₃ := hw₁₂.append hw₃
    obtain ⟨b₄, h₄, hw₄, -⟩ := fieldEnd_writes hw₁₃.shows
    have hw₁₄ := hw₁₃.append hw₄
    obtain ⟨b₅, h₅, hw₅, -⟩ := put_writes hw₁₄.shows lineEnd
    refine ⟨b₅, by simp [write, putPieces_eq, h₁, h₂, h₃, h₄, h₅], ?_⟩
    simpa [Op.bytes, flatten_pieces] using hw₁₄.append hw₅

theorem writes_writes (h : b.Shows w c) (ops : List Op) :
    ∃ b', b.writes ops = some b' ∧ Writes b b' w (ops.flatMap Op.bytes) c := by
  induction ops generalizing b w c with
  | nil => exact ⟨b, rfl, .of_shows h rfl⟩
  | cons op ops ih =>
    obtain ⟨b₁, h₁, hw₁⟩ := write_writes h op
    obtain ⟨b₂, h₂, hw₂⟩ := ih hw₁.shows
    exact ⟨b₂, by rw [writes, h₁]; exact h₂, hw₁.append hw₂⟩

/-! ### A stream that is bad -/

/-- Nothing was written. -/
structure Silent (b b' : HTTPBuilder) : Prop where
  buffer : b'.buffer = b.buffer
  bad : b'.bad = b.bad
  overflow : b'.overflow = b.overflow

theorem put_bad (hbad : b.bad = true) (s : List Byte) : b.put s = some b := if_pos hbad

theorem puts_bad (hbad : b.bad = true) (l : List (List Byte)) : b.puts l = some b := by
  induction l with
  | nil => rfl
  | cons s l ih =>
    rw [puts, put_bad hbad]
    exact ih

theorem write_bad (hbad : b.bad = true) (hbuffer : b.buffer = some view) (op : Op) :
    ∃ b', b.write op = some b' ∧ Silent b b' := by
  cases op with
  | piece p =>
    refine ⟨b, ?_, rfl, rfl, rfl⟩
    have hpieces := putPieces_eq b [p]
    rw [puts_bad hbad] at hpieces
    simpa [write, putPieces] using hpieces
  | field name value =>
    obtain ⟨b₁, h₁, hs₁⟩ : ∃ b₁, b.fieldBegin name = some b₁ ∧ Silent b b₁ := by
      have hpos : b.currentPosition = some view.size := by rw [currentPosition, hbuffer]; rfl
      rw [fieldBegin, hpos]
      refine ⟨_, rfl, ?_⟩
      cases sameName name "connection" <;> cases sameName name "server" <;>
        cases sameName name "user-agent" <;> exact ⟨rfl, rfl, rfl⟩
    obtain ⟨b₂, h₂, hs₂⟩ : ∃ b₂, b₁.fieldEnd = some b₂ ∧ Silent b₁ b₂ := by
      rcases hd : b₁.detectConnection with _ | _
      · exact ⟨b₁, by simp [fieldEnd, hd], rfl, rfl, rfl⟩
      · refine ⟨{ b₁ with detectConnection := false,
                          connectionState := .ofValue (view.window.drop b₁.connectionString) },
          ?_, rfl, rfl, rfl⟩
        simp [fieldEnd, hd, hs₁.buffer, hbuffer]
    have hbad₁ := hs₁.bad.trans hbad
    have hbad₂ := hs₂.bad.trans hbad₁
    refine ⟨b₂, ?_, hs₂.buffer.trans hs₁.buffer, hs₂.bad.trans hs₁.bad, hs₂.overflow.trans hs₁.overflow⟩
    simp [write, puts_bad hbad, h₁, putPieces_eq, puts_bad hbad₁, h₂, put_bad hbad₂]

theorem writes_bad (hbad : b.bad = true) (hbuffer : b.buffer = some view) (ops : List Op) :
    ∃ b', b.writes ops = some b' ∧ Silent b b' := by
  induction ops generalizing b with
  | nil => exact ⟨b, rfl, rfl, rfl, rfl⟩
  | cons op ops ih =>
    obtain ⟨b₁, h₁, hs₁⟩ := write_bad hbad hbuffer op
    obtain ⟨b₂, h₂, hs₂⟩ := ih (hs₁.bad.trans hbad) (hs₁.buffer.trans hbuffer)
    exact ⟨b₂, by rw [writes, h₁]; exact h₂, hs₂.buffer.trans hs₁.buffer, hs₂.bad.trans hs₁.bad,
      hs₂.overflow.trans hs₁.overflow⟩

/-! ### The flag for the default field -/

theorem puts_custom {l : List (List Byte)} (h : b.puts l = some b') : k.custom b' = k.custom b := by
  cases k with
  | request => exact puts_userAgent h
  | response =>
    induction l generalizing b with
    | nil =>
      obtain rfl := Option.some.inj h
      rfl
    | cons s l ih =>
      obtain ⟨b₁, h₁, h⟩ := Option.bind_eq_some_iff.mp h
      refine (ih h).trans ?_
      unfold put at h₁
      split at h₁
      · obtain rfl := Option.some.inj h₁
        rfl
      · split at h₁
        · simp at h₁
        · obtain ⟨view', -, rfl⟩ := Option.map_eq_some_iff.mp h₁
          rfl

theorem fieldBegin_custom {name : List Byte} (h : b.fieldBegin name = some b') :
    k.custom b' = (k.custom b || sameName name k.name) := by
  obtain ⟨pos, -, rfl⟩ := Option.map_eq_some_iff.mp h
  dsimp only
  cases k <;> cases sameName name "connection" <;> cases hserver : sameName name "server" <;>
    cases hagent : sameName name "user-agent" <;> simp [Kind.custom, Kind.name, hserver, hagent]

theorem fieldEnd_custom (h : b.fieldEnd = some b') : k.custom b' = k.custom b := by
  unfold fieldEnd at h
  split at h
  · obtain ⟨view, -, rfl⟩ := Option.map_eq_some_iff.mp h
    cases k <;> rfl
  · obtain rfl := Option.some.inj h
    rfl

theorem write_custom (h : b.write op = some b') :
    k.custom b' = (k.custom b || op.names k.name) := by
  cases op with
  | piece p =>
    have hpieces := putPieces_eq b [p]
    simp only [write] at h
    simp only [putPieces, h, Option.bind_some] at hpieces
    simpa [Op.names] using puts_custom hpieces.symm
  | field name value =>
    obtain ⟨b₁, h₁, h⟩ := Option.bind_eq_some_iff.mp h
    obtain ⟨b₂, h₂, h⟩ := Option.bind_eq_some_iff.mp h
    obtain ⟨b₃, h₃, h⟩ := Option.bind_eq_some_iff.mp h
    obtain ⟨b₄, h₄, h⟩ := Option.bind_eq_some_iff.mp h
    rw [putPieces_eq] at h₃
    have h₅ : b₄.puts [lineEnd] = some b' := by simpa [puts] using h
    rw [puts_custom h₅, fieldEnd_custom h₄, puts_custom h₃, fieldBegin_custom h₂, puts_custom h₁,
      Op.names]

/-- The operations write the default field themselves. -/
def named (k : Kind) (ops : List Op) : Bool := ops.any (Op.names k.name)

theorem writes_custom (h : b.writes ops = some b') : k.custom b' = (k.custom b || named k ops) := by
  induction ops generalizing b with
  | nil =>
    obtain rfl := Option.some.inj h
    simp [named]
  | cons op ops ih =>
    obtain ⟨b₁, h₁, h⟩ := Option.bind_eq_some_iff.mp h
    rw [ih h, write_custom h₁, named, named, List.any_cons, Bool.or_assoc]

/-! ### A cycle -/

/-- The bytes of the operations, and of the end of the header if it is done; the default field is left
    out if there is one. -/
def text (k : Kind) (custom : Bool) (ops : List Op) (done : Bool) : List Byte :=
  ops.flatMap Op.bytes ++
    if done then (if custom || named k ops then [] else k.line) ++ lineEnd else []

/-- The complete serialization. -/
def serialization (k : Kind) (ops : List Op) : List Byte := text k false ops true

theorem init_shows (hbad : b.bad = false) (hover : b.overflow = false) (view : BufferView) :
    (b.init view).Shows view.window view.capacity :=
  ⟨⟨view.front, rfl⟩, hbad.trans hover.symm, fun h => by rw [init, hover] at h; cases h⟩

theorem Kind.done_of_puts (k : Kind)
    (h : b.puts ((if k.custom b then [] else [k.line]) ++ [lineEnd]) = some b') :
    k.done b = some (b', !b'.overflow) := by
  rw [k.done_eq]
  cases hc : k.custom b with
  | false =>
    obtain ⟨b₁, h₁, h⟩ : ∃ b₁, b.put k.line = some b₁ ∧ b₁.put lineEnd = some b' := by
      simpa [hc, puts, Option.bind_eq_some_iff] using h
    simp [h₁, h]
  | true =>
    have h₁ : b.put lineEnd = some b' := by simpa [hc, puts] using h
    simp [h₁]

/-- With a stream that is good, a cycle writes its text, as far as there is room. -/
theorem build_writes (hbad : b.bad = false) (hover : b.overflow = false) (k : Kind) (view : BufferView)
    (ops : List Op) (done : Bool) :
    ∃ b', build k b view ops done = some (b', !b'.overflow) ∧
      Writes (b.init view) b' view.window (text k (k.custom b) ops done) view.capacity ∧
      k.custom b' = (k.custom b || named k ops) := by
  obtain ⟨b₁, h₁, hw₁⟩ := writes_writes (init_shows hbad hover view) ops
  have hcustom₁ : k.custom b₁ = (k.custom b || named k ops) := by
    rw [writes_custom h₁]
    cases k <;> rfl
  cases done with
  | false => exact ⟨b₁, by simp [build, h₁], by simpa [text] using hw₁, hcustom₁⟩
  | true =>
    obtain ⟨b₂, h₂, hw₂, -⟩ := puts_writes hw₁.shows ((if k.custom b₁ then [] else [k.line]) ++ [lineEnd])
    refine ⟨b₂, ?_, ?_, ?_⟩
    · simp [build, h₁, k.done_of_puts h₂]
    · have hw := hw₁.append hw₂
      rw [hcustom₁] at hw
      cases hnamed : k.custom b || named k ops <;> simpa [text, hnamed] using hw
    · rw [puts_custom h₂, hcustom₁]

/-- With a stream that is bad, nothing is written. -/
theorem build_bad (hbad : b.bad = true) (k : Kind) (view : BufferView) (ops : List Op) (done : Bool) :
    ∃ b', build k b view ops done = some (b', !b'.overflow) ∧ Silent (b.init view) b' ∧
      k.custom b' = (k.custom b || named k ops) := by
  obtain ⟨b₁, h₁, hs₁⟩ := writes_bad (b := b.init view) hbad rfl ops
  have hcustom₁ : k.custom b₁ = (k.custom b || named k ops) := by
    rw [writes_custom h₁]
    cases k <;> rfl
  have hbad₁ : b₁.bad = true := hs₁.bad.trans hbad
  refine ⟨b₁, ?_, hs₁, hcustom₁⟩
  cases done with
  | false => simp [build, h₁]
  | true => simp [build, h₁, k.done_eq, put_bad hbad₁]

/-! ### The past -/

/-- What earlier cycles leave behind. -/
structure Past where
  /-- a view was too small -/
  overflowed : Bool := false
  /-- and the builder was not sent since -/
  pending : Bool := false
  /-- a cycle since the builder was sent has written the default field itself -/
  named : Bool := false

/-- The view of the cycle is too small, and no earlier one was. -/
def Past.cuts (k : Kind) (p : Past) (c : Cycle) : Bool :=
  !p.overflowed && decide (c.view.capacity < (text k p.named c.ops c.done).length)

def Past.after (k : Kind) (p : Past) (c : Cycle) : Past where
  overflowed := p.overflowed || p.cuts k c
  pending := !c.sent && (p.pending || p.cuts k c)
  named := !c.sent && (p.named || HTTPBuilder.named k c.ops)

def past (k : Kind) (history : List Cycle) : Past := history.foldl (Past.after k) {}

/-- The builder has the flags of its past. -/
structure Knows (k : Kind) (b : HTTPBuilder) (p : Past) : Prop where
  bad : b.bad = p.overflowed
  overflow : b.overflow = p.pending
  custom : k.custom b = p.named
  pending : p.pending = true → p.overflowed = true

/-- The flags when the header is done. -/
theorem Knows.built {p : Past} (h : Knows k b p) (c : Cycle) :
    ∃ b', build k b c.view c.ops c.done = some (b', !b'.overflow) ∧
      b'.bad = (p.overflowed || p.cuts k c) ∧ b'.overflow = (p.pending || p.cuts k c) ∧
      k.custom b' = (p.named || HTTPBuilder.named k c.ops) := by
  cases hover : p.overflowed with
  | true =>
    obtain ⟨b', hb', hs, hcustom⟩ := build_bad (h.bad.trans hover) k c.view c.ops c.done
    have hcuts : p.cuts k c = false := by simp [Past.cuts, hover]
    refine ⟨b', hb', ?_, ?_, by rw [hcustom, h.custom]⟩
    · rw [hs.bad, hcuts]
      exact h.bad.trans hover
    · rw [hs.overflow, hcuts, Bool.or_false]
      exact h.overflow
  | false =>
    have hpending : p.pending = false := by
      rw [Bool.eq_false_iff]
      intro hp
      simp [h.pending hp] at hover
    obtain ⟨b', hb', hw, hcustom⟩ :=
      build_writes (h.bad.trans hover) (h.overflow.trans hpending) k c.view c.ops c.done
    have hcuts : b'.overflow = p.cuts k c := by
      rw [h.custom] at hw
      have hiff := hw.overflow
      rw [show (b.init c.view).overflow = false from h.overflow.trans hpending] at hiff
      rw [Bool.eq_iff_iff, hiff]
      simp [Past.cuts, hover]
    refine ⟨b', hb', ?_, ?_, by rw [hcustom, h.custom]⟩
    · rw [hw.shows.bad, hcuts, Bool.false_or]
    · rw [hcuts, hpending, Bool.false_or]

theorem Knows.after {p : Past} (h : Knows k b p) (c : Cycle) :
    ∃ b', c.run k b = some b' ∧ Knows k b' (p.after k c) := by
  obtain ⟨b', hb', hbad, hover, hcustom⟩ := h.built c
  have hpending : (p.pending || p.cuts k c) = true → (p.overflowed || p.cuts k c) = true := by
    intro hp
    rcases (Bool.or_eq_true ..).mp hp with hp | hp
    · simp [h.pending hp]
    · simp [hp]
  refine ⟨if c.sent then b'.asyncFinalize else b', by simp [Cycle.run, hb'], ?_⟩
  cases hsent : c.sent with
  | true =>
    refine ⟨hbad, by simp [asyncFinalize, Past.after, hsent], ?_, by simp [Past.after, hsent]⟩
    cases k <;> simp [Kind.custom, asyncFinalize, Past.after, hsent]
  | false =>
    refine ⟨hbad, ?_, ?_, ?_⟩
    · simp [Past.after, hsent, hover]
    · simp [Past.after, hsent, hcustom]
    · simpa [Past.after, hsent] using hpending

/-- By induction on the history. -/
theorem Knows.cycles {p : Past} (h : Knows k b p) (history : List Cycle) :
    ∃ b', cycles k b history = some b' ∧ Knows k b' (history.foldl (Past.after k) p) := by
  induction history generalizing b p with
  | nil => exact ⟨b, rfl, h⟩
  | cons c history ih =>
    obtain ⟨b₁, h₁, hk₁⟩ := h.after c
    obtain ⟨b₂, h₂, hk₂⟩ := ih hk₁
    exact ⟨b₂, by rw [HTTPBuilder.cycles, h₁]; exact h₂, hk₂⟩

/-! ### What a cycle shows -/

/-- On an empty view of `n` bytes: at most `n` bytes are written, the result is `Successful_` exactly if
    the serialization fits, then the view holds it, and else a prefix of it. -/
def Exact (k : Kind) (b : HTTPBuilder) (front : List Byte) (n : Nat) (ops : List Op) : Prop :=
  ∃ b' ok view, build k b { front := front, capacity := n } ops true = some (b', ok) ∧
    b'.buffer = some view ∧ view.window.length ≤ n ∧
    (ok = true ↔ (serialization k ops).length ≤ n) ∧
    (ok = true → view.window = serialization k ops) ∧ view.window <+: serialization k ops

/-- The past does no harm to this cycle. -/
def Past.Harmless (k : Kind) (p : Past) (n : Nat) (ops : List Op) : Prop :=
  if p.overflowed then p.pending ∧ n < (serialization k ops).length
  else p.named → HTTPBuilder.named k ops = true ∨ n ≤ (ops.flatMap Op.bytes).length

instance (k : Kind) (p : Past) (n : Nat) (ops : List Op) : Decidable (p.Harmless k n ops) :=
  inferInstanceAs (Decidable (if p.overflowed then p.pending ∧ n < (serialization k ops).length
    else p.named → HTTPBuilder.named k ops = true ∨ n ≤ (ops.flatMap Op.bytes).length))

/-- `Exact` for a text of which the view has room for `n` bytes. -/
def Shown (t s : List Byte) (n : Nat) : Prop :=
  (t.length ≤ n ↔ s.length ≤ n) ∧ (t.length ≤ n → t = s) ∧ t.take n <+: s

theorem exact_iff_of_good (hbad : b.bad = false) (hover : b.overflow = false) (front : List Byte)
    (n : Nat) (ops : List Op) :
    Exact k b front n ops ↔ Shown (text k (k.custom b) ops true) (serialization k ops) n := by
  obtain ⟨b', hb', hw, -⟩ := build_writes hbad hover k { front := front, capacity := n } ops true
  obtain ⟨front', hbuffer⟩ := hw.shows.buffer
  rw [List.nil_append] at hbuffer
  have hok : (!b'.overflow) = true ↔ (text k (k.custom b) ops true).length ≤ n := by
    have hiff : b'.overflow = true ↔ n < (text k (k.custom b) ops true).length := by
      rw [hw.overflow]
      simp [init, hover]
    rw [Bool.not_eq_true', ← Bool.not_eq_true, hiff, Nat.not_lt]
  have htake : (text k (k.custom b) ops true).length ≤ n →
      (text k (k.custom b) ops true).take n = text k (k.custom b) ops true := List.take_of_length_le
  constructor
  · rintro ⟨b₁, ok, view, heq, hview, -, hfits, hwindow, hprefix⟩
    rw [hb'] at heq
    obtain ⟨rfl, rfl⟩ := Prod.mk.inj (Option.some.inj heq)
    obtain rfl := Option.some.inj (hbuffer.symm.trans hview)
    rw [hok] at hfits hwindow
    exact ⟨hfits, fun hle => (htake hle).symm.trans (hwindow hle), hprefix⟩
  · rintro ⟨hfits, heq, hprefix⟩
    refine ⟨b', _, _, hb', hbuffer, List.length_take_le _ _, hok.trans hfits, fun h => ?_, hprefix⟩
    · rw [hok] at h
      exact (htake h).trans (heq h)

theorem exact_iff_of_bad (hbad : b.bad = true) (front : List Byte) (n : Nat) (ops : List Op) :
    Exact k b front n ops ↔ b.overflow = true ∧ n < (serialization k ops).length := by
  obtain ⟨b', hb', hs, -⟩ := build_bad hbad k { front := front, capacity := n } ops true
  have hover : b'.overflow = b.overflow := hs.overflow
  constructor
  · rintro ⟨b₁, ok, view, heq, hview, -, hfits, hwindow, -⟩
    rw [hb'] at heq
    obtain ⟨rfl, rfl⟩ := Prod.mk.inj (Option.some.inj heq)
    obtain rfl := Option.some.inj (hs.buffer.symm.trans hview)
    have hne : ([] : List Byte) ≠ serialization k ops := by
      simp [serialization, text, lineEnd, ascii]
    have hfailed : (!b'.overflow) ≠ true := fun hok => hne (hwindow hok)
    rw [Ne, hfits, Nat.not_le] at hfailed
    rw [← hover]
    refine ⟨?_, hfailed⟩
    by_contra hok
    exact absurd (hfits.mp (by simpa using hok)) (Nat.not_le.mpr hfailed)
  · rintro ⟨hb, hlt⟩
    rw [← hover] at hb
    refine ⟨b', _, _, hb', hs.buffer, Nat.zero_le _, ?_, ?_, List.nil_prefix⟩
    · simp [hb, Nat.not_le.mpr hlt]
    · simp [hb]

/-- With the default field left out, what is shown is right only as long as the operations alone fill the
    view: a line end behind them is not how the default field begins. -/
theorem shown_left_out_iff (k : Kind) (l : List Byte) (n : Nat) :
    Shown (l ++ lineEnd) (l ++ (k.line ++ lineEnd)) n ↔ n ≤ l.length := by
  have htext : (l ++ lineEnd).length = l.length + 2 := by rw [List.length_append]; rfl
  have hserial : l.length + 2 < (l ++ (k.line ++ lineEnd)).length := by
    rw [List.length_append, List.length_append]
    cases k <;> simp [Kind.line, ascii, lineEnd]
  constructor
  · rintro ⟨-, hwhole, hprefix⟩
    by_contra hn
    rcases Nat.lt_or_ge n (l.length + 2) with hlt | hge
    · obtain rfl : n = l.length + 1 := by omega
      rw [List.take_length_add_append, List.prefix_append_right_inj] at hprefix
      revert hprefix
      cases k <;> decide
    · have hlength := congrArg List.length (hwhole (by omega))
      omega
  · intro hn
    refine ⟨by omega, fun hle => by omega, ?_⟩
    rw [List.take_append_of_le_length hn]
    exact (List.take_prefix n l).trans (List.prefix_append ..)

theorem shown_self (s : List Byte) (n : Nat) : Shown s s n :=
  ⟨Iff.rfl, fun _ => rfl, List.take_prefix n s⟩

theorem Knows.init (k : Kind) : Knows k {} {} := by
  cases k <;> exact ⟨rfl, rfl, rfl, fun h => h⟩

theorem Knows.exact_iff {p : Past} (h : Knows k b p) (front : List Byte) (n : Nat) (ops : List Op) :
    Exact k b front n ops ↔ p.Harmless k n ops := by
  rw [Past.Harmless]
  cases hover : p.overflowed with
  | true =>
    rw [if_pos rfl, exact_iff_of_bad (h.bad.trans hover), h.overflow]
  | false =>
    have hpending : p.pending = false := by
      rw [Bool.eq_false_iff]
      intro hp
      simp [h.pending hp] at hover
    rw [if_neg (by simp), exact_iff_of_good (h.bad.trans hover) (h.overflow.trans hpending), h.custom]
    by_cases hleft : p.named = true ∧ HTTPBuilder.named k ops = false
    · have hshown := shown_left_out_iff k (ops.flatMap Op.bytes) n
      simpa [text, serialization, hleft.1, hleft.2] using hshown
    · have hsame : text k p.named ops true = serialization k ops := by
        rw [serialization, text, text]
        cases hp : p.named <;> cases hn : HTTPBuilder.named k ops <;> simp [hp, hn] at hleft ⊢
      rw [hsame]
      refine iff_of_true (shown_self _ _) fun hp => .inl ?_
      simpa [hp] using hleft

end HTTPBuilder

open HTTPBuilder

/-- CORRECT: after any earlier cycles, a cycle of a builder is exact if and only if its past does it no
    harm: no earlier view was too small, and no own default field is remembered that this cycle does
    not write (unless the view ends before it would matter). After a view that was too small, only a
    header that does not fit either is answered rightly, and only until the builder is sent. -/
theorem builder_exact_iff (k : Kind) (history : List Cycle) (front : List Byte) (n : Nat)
    (ops : List Op) :
    ∃ b, cycles k {} history = some b ∧ (Exact k b front n ops ↔ (past k history).Harmless k n ops) := by
  obtain ⟨b, hb, hk⟩ := (Knows.init k).cycles history
  exact ⟨b, hb, hk.exact_iff front n ops⟩

/-- After a header that was too large for its view and was sent as far as it fit, nothing is written any
    more; after one with an own User-Agent that was abandoned, there is no User-Agent. -/
theorem builder_not_exact :
    let line : Op := .piece (.block [71, CR, LF])
    let overflowed : Cycle := ⟨{ capacity := 4 }, [line], true, true⟩
    let abandoned : Cycle := ⟨{ capacity := 64 }, [line, .field (ascii "User-Agent") []], true, false⟩
    (∃ b, cycles .request {} [overflowed] = some b ∧ ¬ Exact .request b [] 64 [line]) ∧
      ∃ b, cycles .request {} [abandoned] = some b ∧ ¬ Exact .request b [] 64 [line] := by
  intro line overflowed abandoned
  obtain ⟨b, hb, hk⟩ := (Knows.init .request).cycles [overflowed]
  obtain ⟨b', hb', hk'⟩ := (Knows.init .request).cycles [abandoned]
  refine ⟨⟨b, hb, ?_⟩, b', hb', ?_⟩
  · rw [hk.exact_iff]
    decide
  · rw [hk'.exact_iff]
    decide

end Jinx.Http
