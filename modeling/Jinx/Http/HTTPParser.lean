import Jinx.ControlState
import Jinx.Http.BufferView
import Jinx.Lib.Runs

/-! `HTTPParser`, and a session in which it is awaited again and again on a stream.

    The parse functions scan the window of the buffer view. A `std::find` splits the window in
    what comes before the byte and what starts with it. They end by pausing with a result, by
    returning, or by awaiting a read; the parser is a pausable awaitable, so a result that pauses is
    followed by another await of its awaiter. -/

namespace Jinx.Http

/-! ### Bytes -/

abbrev CR : Byte := 13
abbrev LF : Byte := 10
abbrev SP : Byte := 32
abbrev HTAB : Byte := 9
abbrev COLON : Byte := 58

/-- `std::isspace` in the C locale. -/
def isspace (c : Byte) : Bool := c == SP || 9 ≤ c && c ≤ 13

/-! ### The parser -/

/-- `enum class HTTPParserState`. -/
inductive HTTPParserState where
  | uninitialized | endOfStream | entityTooLarge | badRequest | startLine | header | complete
  deriving DecidableEq, Repr

/-- The callback that is bound, and the data members; `buffer` is what `_buffer` points to, and the
    slices are kept as the bytes they show. -/
structure HTTPParser where
  buffer : BufferView
  state : HTTPParserState := .uninitialized
  startLineFirst : List Byte := []
  startLineSecond : List Byte := []
  startLineThird : List Byte := []
  fieldName : List Byte := []
  fieldValue : List Byte := []
  result : Option HTTPParserState := none
  deriving DecidableEq, Repr

/-- How a callback of the parser ends. -/
inductive Async where
  /-- it awaits `_stream->read(_buffer)`, and `parse` is next -/
  | await
  | pause
  | ret
  | throw (e : Error)
  /-- `error::fatal` -/
  | fatal
  deriving DecidableEq, Repr

namespace HTTPParser

def readMore (p : HTTPParser) : HTTPParser × Async :=
  if p.buffer.capacity = 0 then ({ p with result := some .entityTooLarge }, .ret) else (p, .await)

/-- The three parts that are split in spaces, and the bytes from the first CR after them. -/
def splitStartLine (w : List Byte) : List Byte × List Byte × List Byte × List Byte :=
  let fromSecond := (w.dropWhile (· != SP)).dropWhile (· == SP)
  let fromThird := (fromSecond.dropWhile (· != SP)).dropWhile (· == SP)
  (w.takeWhile (· != SP), fromSecond.takeWhile (· != SP), fromThird.takeWhile (· != CR),
    fromThird.dropWhile (· != CR))

/-- An empty line before the start line is skipped. -/
def dropCRLF : List Byte → List Byte
  | 13 :: 10 :: l => l
  | l => l

/-- `parse_start_line`: CR, LF and one byte of the first field have to be there. -/
def parseStartLine (p : HTTPParser) : HTTPParser × Async :=
  match splitStartLine p.buffer.window with
  | (first, second, third, _ :: lf :: end_ :: rest) =>
    if lf ≠ LF then ({ p with result := some .badRequest }, .ret)
    else if isspace end_ then ({ p with result := some .badRequest }, .ret)
    else
      match p.buffer.consume (p.buffer.size - (end_ :: rest).length) with
      | none => (p, .fatal)
      | some buffer =>
        ({ p with buffer := buffer, startLineFirst := dropCRLF first, startLineSecond := second,
                  startLineThird := third, result := some .startLine, state := .header }, .pause)
  | _ => p.readMore

/-- What the loop of `parse_header` finds, with the bytes as it leaves them. -/
inductive Value where
  /-- the line is not complete -/
  | more (w : List Byte)
  /-- a CR without LF -/
  | bare (w : List Byte)
  /-- the bytes from the colon to the CR, and the bytes after the LF -/
  | found (v rest : List Byte)
  deriving DecidableEq, Repr

/-- Bytes that were passed before. -/
def Value.after (l : List Byte) : Value → Value
  | more w => more (l ++ w)
  | bare w => bare (l ++ w)
  | found v rest => found (l ++ v) rest

/-- The loop of `parse_header`, from the colon on: line folding is replaced by three spaces. -/
def scanValue : List Byte → Value
  | [] => .more []
  | c :: l =>
    if c ≠ CR then (scanValue l).after [c]
    else
      match l with
      | [] => .more [c]
      | lf :: l =>
        if lf ≠ LF then .bare (c :: lf :: l)
        else
          match l with
          | [] => .more [c, lf]
          | end_ :: l =>
            if end_ = SP ∨ end_ = HTAB then (scanValue l).after [SP, SP, SP]
            else .found [] (end_ :: l)

/-- The colon and the whitespace around the value are skipped. -/
def trim (v : List Byte) : List Byte :=
  (((v.drop 1).dropWhile isspace).reverse.dropWhile isspace).reverse

/-- The end of the header. -/
def completeHeader (p : HTTPParser) : HTTPParser × Async :=
  match p.buffer.consume 2 with
  | none => (p, .fatal)
  | some buffer =>
    match buffer.cut buffer.offset with
    | none => (p, .fatal)
    | some buffer => ({ p with buffer := buffer, result := some .complete }, .ret)

/-- A complete field line, which has been rewritten in the buffer. -/
def takeField (p : HTTPParser) (name value rest : List Byte) : HTTPParser × Async :=
  match p.buffer.consume (p.buffer.size - rest.length) with
  | none => (p, .fatal)
  | some buffer =>
    let p := { p with buffer := buffer, fieldName := name, fieldValue := trim value }
    if name.getLast?.any isspace then ({ p with result := some .badRequest }, .ret)
    else ({ p with result := some .header }, .pause)

/-- `parse_header`. -/
def parseHeader (p : HTTPParser) : HTTPParser × Async :=
  match p.buffer.window with
  | c :: lf :: l =>
    if c = CR ∧ lf = LF then p.completeHeader
    else
      let w := c :: lf :: l
      let name := w.takeWhile (· != COLON)
      let rewrite w := { p with buffer := { p.buffer with window := name ++ w } }
      match scanValue (w.dropWhile (· != COLON)) with
      | .more w => (rewrite w).readMore
      | .bare w => ({ rewrite w with result := some .badRequest }, .ret)
      | .found value rest =>
        (rewrite (value ++ CR :: LF :: rest)).takeField name value rest
  | _ => p.readMore

def parse (p : HTTPParser) : HTTPParser × Async :=
  match p.state with
  | .startLine => p.parseStartLine
  | .header => p.parseHeader
  | .uninitialized => (p, .throw (makeError .uninitialized))
  | _ => (p, .ret)

/-- `handle_error` for `EndOfStream` of the stream; `nop` returns. -/
def handleEndOfStream (p : HTTPParser) : HTTPParser × Async :=
  ({ p with state := .endOfStream, result := some .endOfStream }, .ret)

end HTTPParser

/-! ### A session -/

/-- The callback `_run` is bound to. -/
inductive Callback where
  | readMore
  | parse
  deriving DecidableEq, Repr

/-- What the awaiter of the parser sees. -/
inductive Report where
  | startLine (first second third : List Byte)
  | header (name value : List Byte)
  /-- the result with which the parser has returned -/
  | final (st : Option HTTPParserState)
  deriving DecidableEq, Repr

/-- What the awaiter reads off the parser when it gets control. -/
def HTTPParser.report (p : HTTPParser) : Report :=
  match p.result with
  | some .startLine => .startLine p.startLineFirst p.startLineSecond p.startLineThird
  | some .header => .header p.fieldName p.fieldValue
  | st => .final st

/-- Where a session is. -/
inductive Phase where
  /-- the awaiter has control and will await the parser -/
  | idle
  /-- the parser awaits a read -/
  | reading
  /-- the parser has returned -/
  | done
  /-- an error of the parser itself -/
  | failed
  deriving DecidableEq, Repr

/-- A parser, and the bytes its stream has not delivered yet. -/
structure Session where
  parser : HTTPParser
  callback : Callback
  stream : List Byte
  phase : Phase := .idle
  reports : List Report := []
  deriving DecidableEq, Repr

namespace Session

/-- `HTTPParser::initialize`. -/
def init (view : BufferView) (stream : List Byte) : Session where
  parser := { buffer := view, state := .startLine }
  callback := if view.size = 0 then .readMore else .parse
  stream := stream

/-- A callback of the parser has ended. -/
def settle (s : Session) : HTTPParser × Async → Session
  | (p, .await) => { s with parser := p, callback := .parse, phase := .reading }
  | (p, .pause) => { s with parser := p, phase := .idle, reports := s.reports ++ [p.report] }
  | (p, .ret) => { s with parser := p, phase := .done, reports := s.reports ++ [p.report] }
  | (p, _) => { s with parser := p, phase := .failed }

/-- The parser is awaited. -/
def await (s : Session) : Session :=
  match s.callback with
  | .readMore => s.settle s.parser.readMore
  | .parse => s.settle s.parser.parse

inductive Label where
  | await
  /-- the read delivers `k` bytes -/
  | read (k : Nat)
  /-- the read fails, since the stream is at its end -/
  | endOfStream
  deriving DecidableEq, Repr

/-- One step; a read delivers at least one byte and at most what is free in the buffer. -/
def step (s : Session) : Label → Option Session
  | .await => if s.phase = .idle then some s.await else none
  | .read k =>
    if s.phase = .reading ∧ 0 < k ∧ k ≤ s.stream.length then
      (s.parser.buffer.receive (s.stream.take k)).map fun buffer =>
        { s with stream := s.stream.drop k }.settle { s.parser with buffer := buffer }.parse
    else none
  | .endOfStream =>
    if s.phase = .reading ∧ s.stream = [] then some (s.settle s.parser.handleEndOfStream) else none

abbrev exec : Session → List Label → Option Session := Runs.exec step

end Session

end Jinx.Http
