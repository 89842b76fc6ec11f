import Jinx.Http.HTTPBuilder
import Jinx.Http.MessageHead

/-! What the builders write, the parsers read.

    A `RequestHead` and a `ResponseHead` are what is given to a builder; `write` passes it on call by
    call. The bytes are those of a `MessageHead` in which every separator is one space, and in which the
    last field is the default one if no field has its name (`writeRequest_eq`, `writeResponse_eq`). So a
    parser reports what was given to the builder. -/

namespace Jinx.Http

namespace HTTPBuilder

variable {b b' : HTTPBuilder} {w : List Byte} {c : Nat}

/-! ### Requests, and fields one after the other -/

/-- `HTTPBuilderRequest::write_request_line(method, version) << path`. -/
def writeRequestLine (b : HTTPBuilder) (method path version : List Byte) : Option HTTPBuilder :=
  b.puts [method, [SP], path, [SP], version, lineEnd]

/-- `HTTPBuilderResponse::write_response_line(status, version) << text`. -/
def writeVersionLine (b : HTTPBuilder) (version : List Byte) (status : Nat) (text : List Byte) :
    Option HTTPBuilder :=
  b.puts [version, [SP], decimal status, [SP], text, lineEnd]

/-- The version is a default argument. -/
theorem writeVersionLine_default (b : HTTPBuilder) (status : Nat) (text : List Byte) :
    b.writeVersionLine (ascii "HTTP/1.1") status text = b.writeResponseLine status text := rfl

/-- `HTTPBuilderRequest::write_header_done`; the result is `Successful_`. -/
def writeRequestDone (b : HTTPBuilder) : Option (HTTPBuilder × Bool) :=
  (if b.useCustomUserAgent then some b else b.put (ascii "User-Agent: jinx\r\n")).bind fun b =>
    (b.put lineEnd).map fun b => (b, !b.overflow)

/-- `write_header_field(name) << value` for each of the fields. -/
def writeFields (b : HTTPBuilder) : List (List Byte × List Byte) → Option HTTPBuilder
  | [] => some b
  | (name, value) :: fields => (b.writeHeaderField name value).bind fun b => b.writeFields fields

theorem put_userAgent {s : List Byte} (h : b.put s = some b') :
    b'.useCustomUserAgent = b.useCustomUserAgent := by
  unfold put at h
  split at h
  · obtain rfl := Option.some.inj h
    rfl
  · split at h
    · simp at h
    · obtain ⟨view', -, rfl⟩ := Option.map_eq_some_iff.mp h
      rfl

theorem puts_userAgent {l : List (List Byte)} (h : b.puts l = some b') :
    b'.useCustomUserAgent = b.useCustomUserAgent := by
  induction l generalizing b with
  | nil =>
    obtain rfl := Option.some.inj h
    rfl
  | cons s l ih =>
    obtain ⟨b₁, h₁, h⟩ := Option.bind_eq_some_iff.mp h
    exact (ih h).trans (put_userAgent h₁)

theorem fieldBegin_userAgent {name : List Byte} (h : b.fieldBegin name = some b') :
    b'.useCustomUserAgent = (b.useCustomUserAgent || sameName name "user-agent") := by
  obtain ⟨pos, -, rfl⟩ := Option.map_eq_some_iff.mp h
  dsimp only
  cases sameName name "connection" <;> cases sameName name "server" <;>
    cases sameName name "user-agent" <;> simp

theorem fieldEnd_userAgent (h : b.fieldEnd = some b') :
    b'.useCustomUserAgent = b.useCustomUserAgent := by
  unfold fieldEnd at h
  split at h
  · obtain ⟨view, -, rfl⟩ := Option.map_eq_some_iff.mp h
    rfl
  · obtain rfl := Option.some.inj h
    rfl

theorem writeHeaderField_userAgent {name value : List Byte}
    (h : b.writeHeaderField name value = some b') :
    b'.useCustomUserAgent = (b.useCustomUserAgent || sameName name "user-agent") := by
  obtain ⟨b₁, h₁, h⟩ := Option.bind_eq_some_iff.mp h
  obtain ⟨b₂, h₂, h⟩ := Option.bind_eq_some_iff.mp h
  obtain ⟨b₃, h₃, h⟩ := Option.bind_eq_some_iff.mp h
  obtain ⟨b₄, h₄, h⟩ := Option.bind_eq_some_iff.mp h
  rw [put_userAgent h, fieldEnd_userAgent h₄, put_userAgent h₃, fieldBegin_userAgent h₂,
    puts_userAgent h₁]

/-- The bytes of a field as it is written. -/
def fieldBytes (f : List Byte × List Byte) : List Byte := f.1 ++ ascii ": " ++ f.2 ++ lineEnd

/-- By induction on the fields: all of them are written, and it is known whether one of them has the
    name of a default field. -/
theorem writeFields_writes (fields : List (List Byte × List Byte)) (h : b.Shows w c)
    (hdetect : b.detectConnection = false) :
    ∃ b', b.writeFields fields = some b' ∧ Writes b b' w (fields.flatMap fieldBytes) c ∧
      b'.useCustomServerName = (b.useCustomServerName || fields.any fun f => sameName f.1 "server") ∧
      b'.useCustomUserAgent =
        (b.useCustomUserAgent || fields.any fun f => sameName f.1 "user-agent") := by
  induction fields generalizing b w c with
  | nil => exact ⟨b, rfl, .of_shows h rfl, by simp, by simp⟩
  | cons f fields ih =>
    obtain ⟨name, value⟩ := f
    obtain ⟨b₁, h₁, hw₁, hdetect₁, hserver₁, -⟩ := writeHeaderField_writes h hdetect name value
    obtain ⟨b₂, h₂, hw₂, hserver₂, hagent₂⟩ := ih hw₁.shows hdetect₁
    refine ⟨b₂, by rw [writeFields, h₁]; exact h₂, hw₁.append hw₂, ?_, ?_⟩
    · rw [hserver₂, hserver₁, List.any_cons, Bool.or_assoc]
    · rw [hagent₂, writeHeaderField_userAgent h₁, List.any_cons, Bool.or_assoc]

theorem writeRequestDone_writes (h : b.Shows w c) :
    ∃ b', b.writeRequestDone = some (b', !b'.overflow) ∧
      Writes b b' w ((if b.useCustomUserAgent then [] else ascii "User-Agent: jinx\r\n") ++ lineEnd) c := by
  rcases hagent : b.useCustomUserAgent with _ | _
  · obtain ⟨b₁, h₁, hw₁, -⟩ := put_writes h (ascii "User-Agent: jinx\r\n")
    obtain ⟨b₂, h₂, hw₂, -⟩ := put_writes hw₁.shows lineEnd
    refine ⟨b₂, by simp [writeRequestDone, hagent, h₁, h₂], ?_⟩
    simpa using hw₁.append hw₂
  · obtain ⟨b₁, h₁, hw₁, -⟩ := put_writes h lineEnd
    refine ⟨b₁, by simp [writeRequestDone, hagent, h₁], ?_⟩
    simpa using hw₁

/-- A fresh builder on an empty view. -/
def fresh (front : List Byte) (c : Nat) : HTTPBuilder :=
  ({} : HTTPBuilder).init { front := front, capacity := c }

/-- What fits is in the view when the builder has done. -/
theorem Writes.fits {front s : List Byte} (h : Writes (fresh front c) b' [] s c) (hs : s.length ≤ c) :
    b'.overflow = false ∧ ∃ view, b'.buffer = some view ∧ view.window = s := by
  obtain ⟨front', hbuffer⟩ := h.shows.buffer
  refine ⟨?_, _, hbuffer, ?_⟩
  · rw [Bool.eq_false_iff]
    intro hover
    rcases h.overflow.mp hover with hover | hlt
    · cases hover
    · omega
  · rw [List.nil_append, List.take_of_length_le hs]

theorem fresh_shows (front : List Byte) (c : Nat) : (fresh front c).Shows [] c :=
  ⟨⟨front, rfl⟩, rfl, fun h => by cases h⟩

end HTTPBuilder

/-! ### What is given to a builder -/

/-- A header field. -/
structure Field where
  name : List Byte
  value : List Byte
  name_ne : name ≠ []
  name_token : ∀ c ∈ name, isTchar c = true
  value_line : NoCRLF value
  value_begin : value.head?.any isspace = false
  value_end : value.getLast?.any isspace = false

/-- A request without its body. -/
structure RequestHead where
  method : List Byte
  path : List Byte
  version : List Byte
  fields : List Field
  method_word : NoCRLF method ∧ ∀ c ∈ method, c ≠ SP
  path_ne : path ≠ []
  path_word : NoCRLF path ∧ ∀ c ∈ path, c ≠ SP
  version_line : NoCRLF version
  version_begin : version.head? ≠ some SP

/-- A response without its body. -/
structure ResponseHead where
  version : List Byte
  status : Nat
  reason : List Byte
  fields : List Field
  version_word : NoCRLF version ∧ ∀ c ∈ version, c ≠ SP
  reason_line : NoCRLF reason
  reason_begin : reason.head? ≠ some SP

/-- "User-Agent: jinx". -/
def userAgent : Field where
  name := ascii "User-Agent"
  value := ascii "jinx"
  name_ne := by decide
  name_token := List.all_eq_true.mp (by decide)
  value_line := by decide
  value_begin := by decide
  value_end := by decide

/-- "Server: jinx". -/
def server : Field where
  name := ascii "Server"
  value := ascii "jinx"
  name_ne := by decide
  name_token := List.all_eq_true.mp (by decide)
  value_line := by decide
  value_begin := by decide
  value_end := by decide

namespace Field

def report (f : Field) : Report := .header f.name f.value

def pair (f : Field) : List Byte × List Byte := (f.name, f.value)

/-- The fields, and the default one unless a field has the name. -/
def withDefault (fields : List Field) (name : String) (default : Field) : List Field :=
  fields ++ if fields.any fun f => sameName f.name name then [] else [default]

/-- The line of a field: there is a space before the value. -/
def line (f : Field) : FieldLine where
  name := f.name
  value := SP :: f.value
  folds := []
  name_ne := f.name_ne
  name_token := f.name_token
  value_line := List.forall_mem_cons.mpr ⟨by decide, f.value_line⟩

theorem line_bytes (f : Field) : f.line.bytes = HTTPBuilder.fieldBytes f.pair := by
  have hsep : ascii ": " = [COLON, SP] := by decide
  have hend : lineEnd = crlf := by decide
  simp [FieldLine.bytes, line, HTTPBuilder.fieldBytes, pair, hsep, hend]

theorem dropWhile_of_head {l : List Byte} (h : l.head?.any isspace = false) : l.dropWhile isspace = l := by
  rcases l with _ | ⟨c, l⟩
  · rfl
  · have hc : isspace c = false := by simpa using h
    simp [hc]

/-- Nothing is left out of the value. -/
theorem line_report (f : Field) : f.line.report = f.report := by
  have hrev : f.value.reverse.head?.any isspace = false := by
    rw [List.head?_reverse]
    exact f.value_end
  have hsp : isspace SP = true := by decide
  simp only [FieldLine.report, line, report, List.flatMap_nil, List.append_nil, FieldLine.strip,
    List.dropWhile_cons_of_pos hsp, dropWhile_of_head f.value_begin, dropWhile_of_head hrev,
    List.reverse_reverse]

theorem withDefault_ne (fields : List Field) (name : String) (default : Field) :
    withDefault fields name default ≠ [] := by
  rcases fields with _ | ⟨f, fields⟩
  · simp [withDefault]
  · simp [withDefault]

theorem withDefault_bytes (fields : List Field) (name : String) (default : Field) :
    ((withDefault fields name default).map line).flatMap FieldLine.bytes =
      (fields.map pair).flatMap HTTPBuilder.fieldBytes ++
        if (fields.map pair).any fun f => sameName f.1 name then [] else
          HTTPBuilder.fieldBytes default.pair := by
  have hany : ((fields.map pair).any fun f => sameName f.1 name) =
      fields.any fun f => sameName f.name name := by
    rw [List.any_map]
    rfl
  rw [hany, withDefault, List.map_append, List.flatMap_append, List.flatMap_map, List.flatMap_map]
  congr 1
  · simp only [line_bytes, List.flatMap_map]
  · split
    · rfl
    · simp [line_bytes]

end Field

namespace RequestHead

/-- The calls of the builder. -/
def write (r : RequestHead) (b : HTTPBuilder) : Option (HTTPBuilder × Bool) :=
  (b.writeRequestLine r.method r.path r.version).bind fun b =>
    (b.writeFields (r.fields.map Field.pair)).bind fun b => b.writeRequestDone

def allFields (r : RequestHead) : List Field := Field.withDefault r.fields "user-agent" userAgent

/-- What a parser of the request reports. -/
def reports (r : RequestHead) : List Report :=
  .startLine r.method r.path r.version :: r.allFields.map Field.report ++ [.final (some .complete)]

/-- The head as the grammar has it. -/
def head (r : RequestHead) : MessageHead where
  leading := false
  first := r.method
  second := r.path
  third := r.version
  spaces₁ := 1
  spaces₂ := 1
  fields := r.allFields.map Field.line
  first_word := r.method_word
  second_ne := r.path_ne
  second_word := r.path_word
  third_line := r.version_line
  third_begin := r.version_begin
  spaces₁_pos := Nat.one_pos
  spaces₂_pos := Nat.one_pos

theorem head_bytes (r : RequestHead) : r.head.bytes =
    (r.method ++ [SP] ++ r.path ++ [SP] ++ r.version ++ lineEnd) ++
      ((r.fields.map Field.pair).flatMap HTTPBuilder.fieldBytes ++
        ((if (r.fields.map Field.pair).any fun f => sameName f.1 "user-agent" then [] else
          ascii "User-Agent: jinx\r\n") ++ lineEnd)) := by
  have hend : crlf = lineEnd := by decide
  have hagent : HTTPBuilder.fieldBytes userAgent.pair = ascii "User-Agent: jinx\r\n" := by decide
  rw [MessageHead.bytes, head, allFields, Field.withDefault_bytes, hagent, hend]
  simp [MessageHead.startLine]

/-- The builder writes the head. -/
theorem write_eq (r : RequestHead) (front : List Byte) {c : Nat} (hc : r.head.bytes.length ≤ c) :
    ∃ b view, r.write (.fresh front c) = some (b, true) ∧ b.buffer = some view ∧
      view.window = r.head.bytes := by
  obtain ⟨b₁, h₁, hw₁, hk₁⟩ := HTTPBuilder.puts_writes (HTTPBuilder.fresh_shows front c)
    [r.method, [SP], r.path, [SP], r.version, lineEnd]
  obtain ⟨b₂, h₂, hw₂, -, hagent⟩ :=
    HTTPBuilder.writeFields_writes (r.fields.map Field.pair) hw₁.shows hk₁.detect
  have hw₁₂ := hw₁.append hw₂
  obtain ⟨b₃, h₃, hw₃⟩ := HTTPBuilder.writeRequestDone_writes hw₁₂.shows
  have hw := hw₁₂.append hw₃
  have hbytes : [r.method, [SP], r.path, [SP], r.version, lineEnd].flatten ++
      (r.fields.map Field.pair).flatMap HTTPBuilder.fieldBytes ++
        ((if b₂.useCustomUserAgent then [] else ascii "User-Agent: jinx\r\n") ++ lineEnd) =
      r.head.bytes := by
    have hfresh : (HTTPBuilder.fresh front c).useCustomUserAgent = false := rfl
    rw [hagent, HTTPBuilder.puts_userAgent h₁, hfresh, Bool.false_or, head_bytes]
    simp
  rw [hbytes] at hw
  obtain ⟨hover, view, hview, hwindow⟩ := hw.fits hc
  refine ⟨b₃, view, ?_, hview, hwindow⟩
  rw [write, HTTPBuilder.writeRequestLine, h₁, Option.bind_some, h₂, Option.bind_some, h₃, hover]
  rfl

theorem head_fields_ne (r : RequestHead) : r.head.fields ≠ [] := by
  simp [head, allFields, Field.withDefault_ne]

theorem head_reports (r : RequestHead) : r.head.reports = r.reports := by
  simp only [MessageHead.reports, head, reports, List.map_map]
  congr 3
  exact funext Field.line_report

end RequestHead

namespace ResponseHead

/-- The calls of the builder. -/
def write (r : ResponseHead) (b : HTTPBuilder) : Option (HTTPBuilder × Bool) :=
  (b.writeVersionLine r.version r.status r.reason).bind fun b =>
    (b.writeFields (r.fields.map Field.pair)).bind fun b => b.writeHeaderDone

def allFields (r : ResponseHead) : List Field := Field.withDefault r.fields "server" server

/-- What a parser of the response reports. -/
def reports (r : ResponseHead) : List Report :=
  .startLine r.version (decimal r.status) r.reason :: r.allFields.map Field.report ++
    [.final (some .complete)]

/-- A number is written with digits, which lie behind the space and the line ends. -/
theorem decimal_bounds {n : Nat} {c : Byte} (h : c ∈ decimal n) : SP < c := by
  obtain ⟨d, hd, rfl⟩ := List.mem_map.mp h
  have hdigit := Nat.isDigit_of_mem_toDigits (by decide) (by decide) hd
  obtain ⟨hlow, hhigh⟩ : 48 ≤ d.toNat ∧ d.toNat ≤ 57 := by
    simpa [Char.isDigit, UInt32.le_iff_toNat_le] using hdigit
  rw [UInt8.lt_iff_toNat_lt, UInt8.toNat_ofNat_of_lt' (by show d.toNat < 256; omega)]
  show 32 < d.toNat
  omega

theorem decimal_word (n : Nat) : NoCRLF (decimal n) ∧ ∀ c ∈ decimal n, c ≠ SP := by
  refine ⟨fun c hc => ⟨?_, ?_⟩, fun c hc => ?_⟩ <;> rintro rfl <;>
    exact absurd (decimal_bounds hc) (by decide)

/-- The head as the grammar has it. -/
def head (r : ResponseHead) : MessageHead where
  leading := false
  first := r.version
  second := decimal r.status
  third := r.reason
  spaces₁ := 1
  spaces₂ := 1
  fields := r.allFields.map Field.line
  first_word := r.version_word
  second_ne := by simp [decimal]
  second_word := decimal_word r.status
  third_line := r.reason_line
  third_begin := r.reason_begin
  spaces₁_pos := Nat.one_pos
  spaces₂_pos := Nat.one_pos

theorem head_bytes (r : ResponseHead) : r.head.bytes =
    (r.version ++ [SP] ++ decimal r.status ++ [SP] ++ r.reason ++ lineEnd) ++
      ((r.fields.map Field.pair).flatMap HTTPBuilder.fieldBytes ++
        ((if (r.fields.map Field.pair).any fun f => sameName f.1 "server" then [] else
          ascii "Server: jinx\r\n") ++ lineEnd)) := by
  have hend : crlf = lineEnd := by decide
  have hserver : HTTPBuilder.fieldBytes server.pair = ascii "Server: jinx\r\n" := by decide
  rw [MessageHead.bytes, head, allFields, Field.withDefault_bytes, hserver, hend]
  simp [MessageHead.startLine]

/-- The builder writes the head. -/
theorem write_eq (r : ResponseHead) (front : List Byte) {c : Nat} (hc : r.head.bytes.length ≤ c) :
    ∃ b view, r.write (.fresh front c) = some (b, true) ∧ b.buffer = some view ∧
      view.window = r.head.bytes := by
  obtain ⟨b₁, h₁, hw₁, hk₁⟩ := HTTPBuilder.puts_writes (HTTPBuilder.fresh_shows front c)
    [r.version, [SP], decimal r.status, [SP], r.reason, lineEnd]
  obtain ⟨b₂, h₂, hw₂, hserver, -⟩ :=
    HTTPBuilder.writeFields_writes (r.fields.map Field.pair) hw₁.shows hk₁.detect
  have hw₁₂ := hw₁.append hw₂
  obtain ⟨b₃, h₃, hw₃, -⟩ := HTTPBuilder.writeHeaderDone_writes hw₁₂.shows
  have hw := hw₁₂.append hw₃
  have hbytes : [r.version, [SP], decimal r.status, [SP], r.reason, lineEnd].flatten ++
      (r.fields.map Field.pair).flatMap HTTPBuilder.fieldBytes ++ b₂.headerEnd = r.head.bytes := by
    have hfresh : (HTTPBuilder.fresh front c).useCustomServerName = false := rfl
    rw [HTTPBuilder.headerEnd, hserver, hk₁.server, hfresh, Bool.false_or, head_bytes]
    simp
  rw [hbytes] at hw
  obtain ⟨hover, view, hview, hwindow⟩ := hw.fits hc
  refine ⟨b₃, view, ?_, hview, hwindow⟩
  rw [write, HTTPBuilder.writeVersionLine, h₁, Option.bind_some, h₂, Option.bind_some, h₃, hover]
  rfl

theorem head_fields_ne (r : ResponseHead) : r.head.fields ≠ [] := by
  simp [head, allFields, Field.withDefault_ne]

theorem head_reports (r : ResponseHead) : r.head.reports = r.reports := by
  simp only [MessageHead.reports, head, reports, List.map_map]
  congr 3
  exact funext Field.line_report

end ResponseHead

/-! ### What the parser reads -/

/-- A parser of the bytes in the view reports `reports` and leaves nothing, and so does one to which a
    stream delivers them, in whatever pieces, if they fit in its memory. -/
structure ParsesBack (view : BufferView) (reports : List Report) : Prop where
  inPlace : Runs.Ends Session.step Session.Done Session.outcome (.init view []) (reports, some [])
  arrived : ∀ M, view.window.length ≤ M →
    Runs.Ends Session.step Session.Done Session.outcome (.init (.empty M) view.window) (reports, some [])

/-- In an empty view of `c` bytes the calls succeed, and what they write parses back. -/
def RoundTrip (write : HTTPBuilder → Option (HTTPBuilder × Bool)) (reports : List Report)
    (front : List Byte) (c : Nat) : Prop :=
  ∃ b view, write (.fresh front c) = some (b, true) ∧ b.buffer = some view ∧ ParsesBack view reports

theorem MessageHead.parsesBack (h : MessageHead) (hfields : h.fields ≠ []) {view : BufferView}
    (hw : view.window = h.bytes) : ParsesBack view h.reports := by
  refine ⟨?_, fun M hM => ?_⟩
  · have hout := h.outputs_bytes hfields []
    have hview : view.window ++ List.take view.capacity [] = h.bytes ++ [] := by
      rw [hw, List.take_nil]
    rw [← hview] at hout
    have hends := Session.ends_of_onTheWay (Session.onTheWay_view _ _ hout)
    have hdrop : (view.window ++ []).drop (view.size + view.capacity) = [] := by
      simp [BufferView.size]
    rwa [Session.body, hdrop, List.append_nil] at hends
  · have haccepted := h.accepted_of_fields hfields (hw ▸ hM) []
    rwa [hw, ← List.append_nil h.bytes]

/-- ROUND TRIP: what a builder was given, on an empty view in which it fits, is what a parser reports,
    with the default field behind the others unless one of them has its name. -/
theorem builder_parses_back :
    (∀ (r : RequestHead) (front : List Byte) (c : Nat), r.head.bytes.length ≤ c →
      RoundTrip r.write r.reports front c) ∧
    ∀ (r : ResponseHead) (front : List Byte) (c : Nat), r.head.bytes.length ≤ c →
      RoundTrip r.write r.reports front c := by
  refine ⟨fun r front c hc => ?_, fun r front c hc => ?_⟩
  · obtain ⟨b, view, hwrite, hview, hw⟩ := r.write_eq front hc
    exact ⟨b, view, hwrite, hview, r.head_reports ▸ r.head.parsesBack r.head_fields_ne hw⟩
  · obtain ⟨b, view, hwrite, hview, hw⟩ := r.write_eq front hc
    exact ⟨b, view, hwrite, hview, r.head_reports ▸ r.head.parsesBack r.head_fields_ne hw⟩

/-- "Host: a". -/
def hostField : Field where
  name := ascii "Host"
  value := ascii "a"
  name_ne := by decide
  name_token := List.all_eq_true.mp (by decide)
  value_line := by decide
  value_begin := by decide
  value_end := by decide

/-- "GET / HTTP/1.1" with the field. -/
def getHost : RequestHead where
  method := ascii "GET"
  path := ascii "/"
  version := ascii "HTTP/1.1"
  fields := [hostField]
  method_word := ⟨by decide, List.forall_mem_ne'.mpr (by decide)⟩
  path_ne := by decide
  path_word := ⟨by decide, List.forall_mem_ne'.mpr (by decide)⟩
  version_line := by decide
  version_begin := by decide

/-- "HTTP/1.1 404 Not Found" without a field. -/
def notFound : ResponseHead where
  version := ascii "HTTP/1.1"
  status := 404
  reason := ascii "Not Found"
  fields := []
  version_word := ⟨by decide, List.forall_mem_ne'.mpr (by decide)⟩
  reason_line := by decide
  reason_begin := by decide

theorem builder_parses_back_getHost :
    (getHost.head.bytes.length ≤ 45 ∧ RoundTrip getHost.write getHost.reports [] 45) ∧
    (notFound.head.bytes.length ≤ 45 ∧ RoundTrip notFound.write notFound.reports [] 45) :=
  ⟨⟨by decide, builder_parses_back.1 getHost [] 45 (by decide)⟩,
    by decide, builder_parses_back.2 notFound [] 45 (by decide)⟩

end Jinx.Http
