import Jinx.Http.WebRoute

/-! `HTTPBuilder` and `HTTPBuilderResponse`: a start line and header fields, written into a buffer view
    through a `std::ostream`.

    A write that does not fit writes what fits, sets `_overflow` and leaves the stream with its `badbit`,
    so that it takes nothing more. A write to a builder without a buffer follows a null pointer
    (`none`). -/

namespace Jinx.Http

/-- The bytes of a string literal. -/
def ascii (s : String) : List Byte := s.toList.map fun c => UInt8.ofNat c.toNat

def lineEnd : List Byte := ascii "\r\n"

/-- An unsigned number as `std::ostream` writes it. -/
def decimal (n : Nat) : List Byte := (Nat.toDigits 10 n).map fun c => UInt8.ofNat c.toNat

/-- `tolower` in the C locale. -/
def toLower (c : Byte) : Byte := if 65 ≤ c ∧ c ≤ 90 then c + 32 else c

/-- `strncasecmp` of a whole name. -/
def sameName (name : List Byte) (s : String) : Bool := name.map toLower == ascii s

/-- `enum class HTTPConnectionState`. -/
inductive HTTPConnectionState where
  | unknown | close | keepAlive | upgrade
  deriving DecidableEq, Repr

/-- The state that the value of a Connection field asks for; values are compared by their hashes. -/
def HTTPConnectionState.ofValue (value : List Byte) : HTTPConnectionState :=
  if hashData value = hashData (ascii "close") then .close
  else if hashData value = hashData (ascii "keep-alive") then .keepAlive
  else if hashData value = hashData (ascii "upgrade") then .upgrade
  else .unknown

structure HTTPBuilder where
  /-- what `_buffer` points to -/
  buffer : Option BufferView := none
  /-- the `badbit` of `_output_stream` -/
  bad : Bool := false
  overflow : Bool := false
  detectConnection : Bool := false
  useCustomServerName : Bool := false
  useCustomUserAgent : Bool := false
  connectionState : HTTPConnectionState := .unknown
  /-- where `_connection_string` begins in the window -/
  connectionString : Nat := 0
  deriving DecidableEq, Repr

namespace HTTPBuilder

/-- `HTTPBuilder::initialize`: only the pointers are set. -/
def init (b : HTTPBuilder) (view : BufferView) : HTTPBuilder := { b with buffer := some view }

def asyncFinalize (b : HTTPBuilder) : HTTPBuilder :=
  { b with buffer := none, overflow := false, detectConnection := false, useCustomServerName := false,
           useCustomUserAgent := false, connectionState := .unknown }

/-- `_output_stream << s`, by way of `xsputn`. -/
def put (b : HTTPBuilder) (s : List Byte) : Option HTTPBuilder :=
  if b.bad then some b
  else
    match b.buffer with
    | none => none
    | some view =>
      (view.receive (s.take view.capacity)).map fun view' =>
        { b with buffer := some view', bad := decide (view.capacity < s.length),
                 overflow := b.overflow || decide (view.capacity < s.length) }

/-- One write after the other. -/
def puts (b : HTTPBuilder) : List (List Byte) → Option HTTPBuilder
  | [] => some b
  | s :: l => (b.put s).bind fun b => b.puts l

/-- `current_position`, as an offset in the window. -/
def currentPosition (b : HTTPBuilder) : Option Nat := b.buffer.map fun view => view.size

def fieldBegin (b : HTTPBuilder) (name : List Byte) : Option HTTPBuilder :=
  b.currentPosition.map fun pos =>
    let b := if sameName name "connection" then
      { b with detectConnection := true, connectionString := pos } else b
    let b := if sameName name "server" then { b with useCustomServerName := true } else b
    if sameName name "user-agent" then { b with useCustomUserAgent := true } else b

def fieldEnd (b : HTTPBuilder) : Option HTTPBuilder :=
  if b.detectConnection then
    b.buffer.map fun view =>
      { b with detectConnection := false,
               connectionState := .ofValue (view.window.drop b.connectionString) }
  else some b

/-- `write_header_field(name) << value`. -/
def writeHeaderField (b : HTTPBuilder) (name value : List Byte) : Option HTTPBuilder :=
  (b.puts [name, ascii ": "]).bind fun b =>
    (b.fieldBegin name).bind fun b =>
      (b.put value).bind fun b => b.fieldEnd.bind fun b => b.put lineEnd

/-- `HTTPBuilderResponse::write_response_line(status) << text`. -/
def writeResponseLine (b : HTTPBuilder) (status : Nat) (text : List Byte) : Option HTTPBuilder :=
  b.puts [ascii "HTTP/1.1", [SP], decimal status, [SP], text, lineEnd]

/-- `HTTPBuilderResponse::write_header_done`; the result is `Successful_`. -/
def writeHeaderDone (b : HTTPBuilder) : Option (HTTPBuilder × Bool) :=
  (if b.useCustomServerName then some b else b.put (ascii "Server: jinx\r\n")).bind fun b =>
    (b.put lineEnd).map fun b => (b, !b.overflow)

variable {b b' b₁ b₂ b₃ : HTTPBuilder} {w s t name value : List Byte} {c : Nat}

/-! ### What is in the buffer -/

/-- The window is `w`, with room for `c` bytes; the stream is bad exactly after an overflow, and then
    there is no room. -/
structure Shows (b : HTTPBuilder) (w : List Byte) (c : Nat) : Prop where
  buffer : ∃ front, b.buffer = some { front := front, window := w, capacity := c }
  bad : b.bad = b.overflow
  full : b.overflow = true → c = 0

/-- What a write does not touch. -/
structure Keeps (b b' : HTTPBuilder) : Prop where
  detect : b'.detectConnection = b.detectConnection
  server : b'.useCustomServerName = b.useCustomServerName
  state : b'.connectionState = b.connectionState
  string : b'.connectionString = b.connectionString

/-- `b'` is `b` after `s` was written behind `w`, as far as there is room. -/
structure Writes (b b' : HTTPBuilder) (w s : List Byte) (c : Nat) : Prop where
  shows : b'.Shows (w ++ s.take c) (c - s.length)
  overflow : b'.overflow = true ↔ b.overflow = true ∨ c < s.length

theorem Shows.of_eq (h : b.Shows w c) (hbuffer : b'.buffer = b.buffer) (hbad : b'.bad = b.bad)
    (hoverflow : b'.overflow = b.overflow) : b'.Shows w c := by
  refine ⟨?_, ?_, ?_⟩
  · rw [hbuffer]
    exact h.buffer
  · rw [hbad, hoverflow]
    exact h.bad
  · rw [hoverflow]
    exact h.full

theorem Keeps.trans (h : Keeps b b₁) (h' : Keeps b₁ b₂) : Keeps b b₂ :=
  ⟨h'.detect.trans h.detect, h'.server.trans h.server, h'.state.trans h.state, h'.string.trans h.string⟩

/-- Two writes are one write of both texts. -/
theorem Writes.append (h : Writes b b₁ w s c) (h' : Writes b₁ b₂ (w ++ s.take c) t (c - s.length)) :
    Writes b b₂ w (s ++ t) c := by
  refine ⟨?_, ?_⟩
  · have hshows := h'.shows
    rwa [List.append_assoc, ← List.take_append, Nat.sub_sub, ← List.length_append] at hshows
  · have hiff : c < s.length ∨ c - s.length < t.length ↔ c < s.length + t.length := by omega
    rw [h'.overflow, h.overflow, List.length_append, or_assoc, hiff]

theorem put_writes (h : b.Shows w c) (s : List Byte) :
    ∃ b', b.put s = some b' ∧ Writes b b' w s c ∧ Keeps b b' := by
  obtain ⟨⟨front, hbuffer⟩, hbad, hfull⟩ := h
  rcases hb : b.overflow with _ | _
  · have hput : b.put s = some { b with
        buffer := some { front := front, window := w ++ s.take c, capacity := c - s.length }
        bad := decide (c < s.length)
        overflow := decide (c < s.length) } := by
      have hmin : c - min c s.length = c - s.length := by omega
      simp [put, hbad, hb, hbuffer, BufferView.receive, hmin, Nat.not_lt.mpr (Nat.min_le_left _ _)]
    refine ⟨_, hput, ⟨⟨⟨front, rfl⟩, rfl, fun hlt => ?_⟩, by simp [hb]⟩, rfl, rfl, rfl, rfl⟩
    have hlt' : c < s.length := by simpa using hlt
    omega
  · obtain rfl := hfull hb
    have hput : b.put s = some b := by simp [put, hbad, hb]
    exact ⟨b, hput, ⟨⟨⟨front, by simp [hbuffer]⟩, hbad, by simp⟩, by simp [hb]⟩, rfl, rfl, rfl, rfl⟩

theorem puts_writes (h : b.Shows w c) (l : List (List Byte)) :
    ∃ b', b.puts l = some b' ∧ Writes b b' w l.flatten c ∧ Keeps b b' := by
  induction l generalizing b w c with
  | nil =>
    refine ⟨b, rfl, ⟨by simpa using h, by simp⟩, rfl, rfl, rfl, rfl⟩
  | cons s l ih =>
    obtain ⟨b₁, h₁, hw₁, hk₁⟩ := put_writes h s
    obtain ⟨b₂, h₂, hw₂, hk₂⟩ := ih hw₁.shows
    exact ⟨b₂, by rw [puts, h₁]; exact h₂, hw₁.append hw₂, hk₁.trans hk₂⟩

theorem Writes.of_shows (h : b'.Shows w c) (hoverflow : b'.overflow = b.overflow) :
    Writes b b' w [] c :=
  ⟨by simpa using h, by simp [hoverflow]⟩

theorem fieldBegin_writes (h : b.Shows w c) (name : List Byte) :
    ∃ b', b.fieldBegin name = some b' ∧ Writes b b' w [] c ∧
      b'.detectConnection = (b.detectConnection || sameName name "connection") ∧
      b'.useCustomServerName = (b.useCustomServerName || sameName name "server") ∧
      b'.connectionState = b.connectionState ∧
      (sameName name "connection" = true → b'.connectionString = w.length) := by
  obtain ⟨front, hbuffer⟩ := h.buffer
  have hpos : b.currentPosition = some w.length := by simp [currentPosition, hbuffer, BufferView.size]
  rw [fieldBegin, hpos]
  refine ⟨_, rfl, ?_⟩
  cases sameName name "connection" <;> cases sameName name "server" <;>
    cases sameName name "user-agent" <;>
    exact ⟨.of_shows (h.of_eq rfl rfl rfl) rfl, by simp, by simp, rfl, by simp⟩

theorem fieldEnd_writes (h : b.Shows w c) :
    ∃ b', b.fieldEnd = some b' ∧ Writes b b' w [] c ∧ b'.detectConnection = false ∧
      b'.useCustomServerName = b.useCustomServerName ∧
      b'.connectionState =
        if b.detectConnection then .ofValue (w.drop b.connectionString) else b.connectionState := by
  obtain ⟨front, hbuffer⟩ := h.buffer
  rcases hd : b.detectConnection with _ | _
  · exact ⟨b, by simp [fieldEnd, hd], .of_shows h rfl, hd, rfl, by simp⟩
  · exact ⟨{ b with detectConnection := false, connectionState := .ofValue (w.drop b.connectionString) },
      by simp [fieldEnd, hd, hbuffer], .of_shows (h.of_eq rfl rfl rfl) rfl, rfl, rfl, by simp⟩

/-- A whole field line. If it fits, the value of a Connection field is taken for the state. -/
theorem writeHeaderField_writes (h : b.Shows w c) (hdetect : b.detectConnection = false)
    (name value : List Byte) :
    ∃ b', b.writeHeaderField name value = some b' ∧
      Writes b b' w (name ++ ascii ": " ++ value ++ lineEnd) c ∧
      b'.detectConnection = false ∧
      b'.useCustomServerName = (b.useCustomServerName || sameName name "server") ∧
      (b'.overflow = false → b'.connectionState =
        if sameName name "connection" then .ofValue value else b.connectionState) := by
  obtain ⟨b₁, h₁, hw₁, hk₁⟩ := puts_writes h [name, ascii ": "]
  obtain ⟨b₂, h₂, hw₂, hdetect₂, hserver₂, hstate₂, hstring₂⟩ := fieldBegin_writes hw₁.shows name
  have hw₁₂ := hw₁.append hw₂
  obtain ⟨b₃, h₃, hw₃, hk₃⟩ := put_writes hw₁₂.shows value
  have hw₁₃ := hw₁₂.append hw₃
  obtain ⟨b₄, h₄, hw₄, hdetect₄, hserver₄, hstate₄⟩ := fieldEnd_writes hw₁₃.shows
  have hw₁₄ := hw₁₃.append hw₄
  obtain ⟨b₅, h₅, hw₅, hk₅⟩ := put_writes hw₁₄.shows lineEnd
  have hw : Writes b b₅ w (name ++ ascii ": " ++ value ++ lineEnd) c := by
    simpa using hw₁₄.append hw₅
  refine ⟨b₅, by simp [writeHeaderField, h₁, h₂, h₃, h₄, h₅], hw, hk₅.detect.trans hdetect₄, ?_,
    fun hover => ?_⟩
  · rw [hk₅.server, hserver₄, hk₃.server, hserver₂, hk₁.server]
  · -- nothing was cut off, so the value is what follows the name
    have hfit : ¬ c < (name ++ ascii ": " ++ value ++ lineEnd).length := by
      intro hlt
      have hover' := hw.overflow.mpr (.inr hlt)
      simp [hover] at hover'
    rw [hk₅.state, hstate₄, hk₃.detect, hdetect₂, hk₁.detect, hdetect, hk₃.state, hstate₂, hk₁.state,
      Bool.false_or]
    split
    · rename_i hconn
      rw [hk₃.string, hstring₂ hconn]
      simp only [List.length_append] at hfit
      have htake : ∀ l : List Byte, l.length ≤ c → l.take c = l := fun l hl => List.take_of_length_le hl
      have hline : (name ++ ascii ": " ++ value).length ≤ c := by
        simp only [List.length_append]
        omega
      have hname : (name ++ ascii ": ").length ≤ c := by
        simp only [List.length_append]
        omega
      congr 1
      simp only [List.flatten_cons, List.flatten_nil, List.append_nil]
      rw [htake _ hline, htake _ hname, ← List.append_assoc w (name ++ ascii ": "), List.drop_left]
    · rfl

theorem writeResponseLine_writes (h : b.Shows w c) (status : Nat) (text : List Byte) :
    ∃ b', b.writeResponseLine status text = some b' ∧
      Writes b b' w (ascii "HTTP/1.1" ++ [SP] ++ decimal status ++ [SP] ++ text ++ lineEnd) c ∧
      Keeps b b' := by
  obtain ⟨b', hb', hw, hk⟩ := puts_writes h [ascii "HTTP/1.1", [SP], decimal status, [SP], text, lineEnd]
  exact ⟨b', hb', by simpa using hw, hk⟩

/-- The lines that end the header. -/
def headerEnd (b : HTTPBuilder) : List Byte :=
  (if b.useCustomServerName then [] else ascii "Server: jinx\r\n") ++ lineEnd

theorem writeHeaderDone_writes (h : b.Shows w c) :
    ∃ b', b.writeHeaderDone = some (b', !b'.overflow) ∧ Writes b b' w b.headerEnd c ∧ Keeps b b' := by
  rcases hserver : b.useCustomServerName with _ | _
  · obtain ⟨b₁, h₁, hw₁, hk₁⟩ := put_writes h (ascii "Server: jinx\r\n")
    obtain ⟨b₂, h₂, hw₂, hk₂⟩ := put_writes hw₁.shows lineEnd
    refine ⟨b₂, by simp [writeHeaderDone, hserver, h₁, h₂], ?_, hk₁.trans hk₂⟩
    simpa [headerEnd, hserver] using hw₁.append hw₂
  · obtain ⟨b₁, h₁, hw₁, hk₁⟩ := put_writes h lineEnd
    refine ⟨b₁, by simp [writeHeaderDone, hserver, h₁], ?_, hk₁⟩
    simpa [headerEnd, hserver] using hw₁

end HTTPBuilder

end Jinx.Http
