import Jinx.Http.Arrival

/-! Well-formed message heads.

    A `MessageHead` is the head of a request or a response as the grammar has it: a start line, field
    lines, an empty line. `bytes` writes it down, `reports` is what a parser should say about it. The
    parser says just that if there is a field line; the byte of look-ahead behind the start line makes
    it refuse every head without one. -/

namespace Jinx.Http

open Incremental HTTPParser

/-! ### The grammar -/

def crlf : List Byte := [CR, LF]

/-- Nothing that ends a line. -/
def NoCRLF (l : List Byte) : Prop := ∀ c ∈ l, c ≠ CR ∧ c ≠ LF

instance (l : List Byte) : Decidable (NoCRLF l) :=
  decidable_of_iff (CR ∉ l ∧ LF ∉ l) (by grind [NoCRLF])

/-- `tchar`: a letter, a digit or one of ``!#$%&'*+-.^_`|~``. -/
def isTchar (c : Byte) : Bool :=
  97 ≤ c && c ≤ 122 || 65 ≤ c && c ≤ 90 || 48 ≤ c && c ≤ 57 ||
    c ∈ [33, 35, 36, 37, 38, 39, 42, 43, 45, 46, 94, 95, 96, 124, 126]

/-- A continuation of a field value, on a line that starts with a space or a tab. -/
structure Fold where
  space : Byte
  text : List Byte
  space_ws : space = SP ∨ space = HTAB
  text_line : NoCRLF text

/-- A field line with its continuations. -/
structure FieldLine where
  name : List Byte
  value : List Byte
  folds : List Fold
  name_ne : name ≠ []
  name_token : ∀ c ∈ name, isTchar c = true
  value_line : NoCRLF value

/-- A message without its body. The spaces between the parts of the start line are counted. -/
structure MessageHead where
  /-- there is an empty line before the start line -/
  leading : Bool
  first : List Byte
  second : List Byte
  third : List Byte
  spaces₁ : Nat
  spaces₂ : Nat
  fields : List FieldLine
  first_word : NoCRLF first ∧ ∀ c ∈ first, c ≠ SP
  second_ne : second ≠ []
  second_word : NoCRLF second ∧ ∀ c ∈ second, c ≠ SP
  third_line : NoCRLF third
  third_begin : third.head? ≠ some SP
  spaces₁_pos : 0 < spaces₁
  spaces₂_pos : 0 < spaces₂

def Fold.bytes (f : Fold) : List Byte := crlf ++ f.space :: f.text

/-- A line folding is replaced by three spaces. -/
def Fold.unfolded (f : Fold) : List Byte := [SP, SP, SP] ++ f.text

namespace FieldLine

def bytes (f : FieldLine) : List Byte :=
  f.name ++ COLON :: (f.value ++ f.folds.flatMap Fold.bytes ++ crlf)

/-- Whitespace on both sides is left out. -/
def strip (l : List Byte) : List Byte :=
  ((l.dropWhile isspace).reverse.dropWhile isspace).reverse

def report (f : FieldLine) : Report :=
  .header f.name (strip (f.value ++ f.folds.flatMap Fold.unfolded))

end FieldLine

namespace MessageHead

def startLine (h : MessageHead) : List Byte :=
  h.first ++ List.replicate h.spaces₁ SP ++ h.second ++ List.replicate h.spaces₂ SP ++ h.third

def bytes (h : MessageHead) : List Byte :=
  (if h.leading then crlf else []) ++ h.startLine ++ crlf ++ h.fields.flatMap FieldLine.bytes ++ crlf

/-- What a parser has to report: the start line, the fields in their order, and that the head is
    complete. -/
def reports (h : MessageHead) : List Report :=
  .startLine h.first h.second h.third :: h.fields.map FieldLine.report ++ [.final (some .complete)]

end MessageHead

/-! ### Field lines -/

variable {l rest body : List Byte} {M : Nat}

/-- The bytes of a token lie behind the whitespace, and the colon is none of them. -/
theorem isTchar_bounds {c : Byte} (h : isTchar c = true) : 33 ≤ c ∧ c ≠ COLON := by
  constructor
  · simp only [isTchar, Bool.or_eq_true, Bool.and_eq_true, decide_eq_true_eq, List.mem_cons,
      List.not_mem_nil, or_false, UInt8.le_iff_toNat_le, ← UInt8.toNat_inj, UInt8.toNat_ofNat] at h ⊢
    omega
  · rintro rfl
    exact absurd h (by decide)

theorem isspace_of_isTchar {c : Byte} (h : isTchar c = true) : isspace c = false := by
  have hc := (isTchar_bounds h).1
  rw [Bool.eq_false_iff]
  simp only [isspace, ne_eq, Bool.or_eq_true, beq_iff_eq, Bool.and_eq_true, decide_eq_true_eq,
    UInt8.le_iff_toNat_le, ← UInt8.toNat_inj, UInt8.toNat_ofNat] at hc ⊢
  omega

/-- The scan passes a text without CR. -/
theorem scanValue_text (h : ∀ c ∈ l, c ≠ CR) (rest : List Byte) :
    scanValue (l ++ rest) = (scanValue rest).after l := by
  induction l with
  | nil => simp
  | cons c l ih =>
    rw [List.cons_append, scanValue_cons (h c List.mem_cons_self),
      ih fun d hd => h d (List.mem_cons_of_mem _ hd), Value.after_after, List.cons_append,
      List.nil_append]

theorem scanValue_folds (folds : List Fold) {c : Byte} (hc : ¬ (c = SP ∨ c = HTAB)) :
    scanValue (folds.flatMap Fold.bytes ++ CR :: LF :: c :: rest) =
      .found (folds.flatMap Fold.unfolded) (c :: rest) := by
  induction folds with
  | nil => exact scanValue_found hc
  | cons f folds ih =>
    simp only [List.flatMap_cons, Fold.bytes, crlf, List.cons_append, List.nil_append,
      List.append_assoc]
    rw [scanValue_fold f.space_ws, scanValue_text (fun d hd => (f.text_line d hd).1), ih]
    simp [Value.after, Fold.unfolded]

namespace FieldLine

variable (f : FieldLine)

theorem name_noColon : ∀ c ∈ f.name, c ≠ COLON :=
  fun c hc => (isTchar_bounds (f.name_token c hc)).2

theorem name_head : ∃ c l, f.name = c :: l ∧ isTchar c = true := by
  rcases hname : f.name with _ | ⟨c, l⟩
  · exact absurd hname f.name_ne
  · exact ⟨c, l, rfl, f.name_token c (by simp [hname])⟩

/-- The name does not end with whitespace. -/
theorem name_last : f.name.getLast?.any isspace = false := by
  rw [List.getLast?_eq_some_getLast f.name_ne]
  exact isspace_of_isTchar (f.name_token _ (List.getLast_mem _))

/-- A field line is accepted if what follows does not continue it. -/
theorem headerVerdict_bytes {c : Byte} (hc : ¬ (c = SP ∨ c = HTAB)) :
    headerVerdict (f.bytes ++ c :: rest) = .emit f.report .header (c :: rest) := by
  have hbytes : f.bytes ++ c :: rest = f.name ++ COLON ::
      (f.value ++ (f.folds.flatMap Fold.bytes ++ CR :: LF :: c :: rest)) := by
    simp [bytes, crlf]
  have hbegun : Begun (f.name ++ COLON ::
      (f.value ++ (f.folds.flatMap Fold.bytes ++ CR :: LF :: c :: rest))) := by
    obtain ⟨d, l, hname, hd⟩ := f.name_head
    have hd' : d ≠ CR := by
      rintro rfl
      exact absurd hd (by decide)
    rcases l with _ | ⟨b, l⟩
    · exact ⟨d, COLON, _, by rw [hname]; rfl, fun h => hd' h.1⟩
    · exact ⟨d, b, _, by rw [hname]; rfl, fun h => hd' h.1⟩
  rw [hbytes, headerVerdict_field f.name_noColon hbegun, scanValue_cons (by decide),
    scanValue_text (fun d hd => (f.value_line d hd).1), scanValue_folds _ hc]
  simp only [Value.after, fieldVerdict, f.name_last, Bool.false_eq_true, if_false]
  rfl

end FieldLine

/-- What follows a line end in a head: the next field line, or the empty line. -/
theorem fields_head (fields : List FieldLine) (rest : List Byte) :
    ∃ c l, fields.flatMap FieldLine.bytes ++ (crlf ++ rest) = c :: l ∧ ¬ (c = SP ∨ c = HTAB) ∧
      (isspace c = true ↔ fields = []) := by
  rcases fields with _ | ⟨f, fields⟩
  · exact ⟨CR, _, rfl, by decide, by decide⟩
  · obtain ⟨c, l, hname, hc⟩ := f.name_head
    have hspace := isspace_of_isTchar hc
    refine ⟨c, _, by rw [List.flatMap_cons, FieldLine.bytes, hname]; rfl, ?_, by simp [hspace]⟩
    rintro (rfl | rfl) <;> exact absurd hspace (by decide)

/-- By induction on the field lines: all of them are reported, then the head is complete. -/
theorem outputs_fields (fields : List FieldLine) (rest : List Byte) :
    Outputs verdict .header (fields.flatMap FieldLine.bytes ++ (crlf ++ rest))
      (fields.map FieldLine.report) (some (.final (some .complete), rest)) := by
  induction fields with
  | nil => exact .stop rfl
  | cons f fields ih =>
    obtain ⟨c, l, heq, hc, -⟩ := fields_head fields rest
    rw [List.flatMap_cons, List.append_assoc]
    rw [heq] at ih ⊢
    exact .emit (f.headerVerdict_bytes hc) ih

/-! ### The start line -/

/-- The spaces between two parts are skipped. -/
theorem skip_spaces {n : Nat} (h : l.head? ≠ some SP) :
    (List.replicate n SP ++ l).dropWhile (· == SP) = l := by
  rw [List.dropWhile_append_of_pos (by simp)]
  rcases l with _ | ⟨c, l⟩
  · rfl
  · have hc : (c == SP) = false := by simpa using h
    simp [hc]

/-- A part ends at the first space. -/
theorem find_space {n : Nat} (h : ∀ c ∈ l, c ≠ SP) (hn : 0 < n) (rest : List Byte) :
    (l ++ (List.replicate n SP ++ rest)).takeWhile (· != SP) = l ∧
      (l ++ (List.replicate n SP ++ rest)).dropWhile (· != SP) = List.replicate n SP ++ rest := by
  obtain ⟨n, rfl⟩ := Nat.exists_eq_succ_of_ne_zero hn.ne'
  rw [List.replicate_succ, List.cons_append]
  exact find_at (by simpa using h) (by decide) _

theorem splitStartLine_words {first second third : List Byte} {m n : Nat} (hm : 0 < m) (hn : 0 < n)
    (h₁ : ∀ c ∈ first, c ≠ SP) (h₂ : ∀ c ∈ second, c ≠ SP) (hne : second ≠ [])
    (h₃ : ∀ c ∈ third, c ≠ CR) (hbegin : third.head? ≠ some SP) (rest : List Byte) :
    splitStartLine (first ++ (List.replicate m SP ++ (second ++ (List.replicate n SP ++
      (third ++ CR :: rest))))) = (first, second, third, CR :: rest) := by
  have hsecond : (second ++ (List.replicate n SP ++ (third ++ CR :: rest))).head? ≠ some SP := by
    rcases second with _ | ⟨c, second⟩
    · exact absurd rfl hne
    · simpa using h₂ c List.mem_cons_self
  have hthird : (third ++ CR :: rest).head? ≠ some SP := by
    rcases third with _ | ⟨c, third⟩
    · have hcr : CR ≠ SP := by decide
      simpa using hcr
    · simpa using hbegin
  obtain ⟨htake₁, hdrop₁⟩ := find_space h₁ hm (second ++ (List.replicate n SP ++ (third ++ CR :: rest)))
  obtain ⟨htake₂, hdrop₂⟩ := find_space h₂ hn (third ++ CR :: rest)
  obtain ⟨htake₃, hdrop₃⟩ := find_at (q := (· != CR)) (d := CR) (by simpa using h₃) (by decide) rest
  simp only [splitStartLine]
  rw [htake₁, hdrop₁, skip_spaces hsecond, htake₂, hdrop₂, skip_spaces hthird, htake₃, hdrop₃]

theorem NoCRLF.head_ne (h : NoCRLF l) : l.head? ≠ some CR := by
  rcases l with _ | ⟨c, l⟩
  · simp
  · simpa using (h c List.mem_cons_self).1

theorem dropCRLF_line (h : l.head? ≠ some CR) (leading : Bool) :
    dropCRLF ((if leading then crlf else []) ++ l) = l := by
  rcases leading with _ | _
  · simp only [Bool.false_eq_true, if_false, List.nil_append]
    unfold dropCRLF
    split
    · exact absurd rfl h
    · rfl
  · rfl

namespace MessageHead

variable (h : MessageHead)

/-- The start line is judged by the byte behind it. -/
theorem startLineVerdict_bytes (c : Byte) (rest : List Byte) :
    startLineVerdict ((if h.leading then crlf else []) ++ h.startLine ++ crlf ++ c :: rest) =
      if isspace c then .stop (.final (some .badRequest))
        ((if h.leading then crlf else []) ++ h.startLine ++ crlf ++ c :: rest)
      else .emit (.startLine h.first h.second h.third) .header (c :: rest) := by
  have hfirst : ∀ c ∈ (if h.leading then crlf else []) ++ h.first, c ≠ SP := by
    rintro c hc rfl
    rcases List.mem_append.mp hc with hc | hc
    · split at hc
      · exact absurd hc (by decide)
      · simp at hc
    · exact h.first_word.2 _ hc rfl
  have hsplit := splitStartLine_words h.spaces₁_pos h.spaces₂_pos hfirst h.second_word.2 h.second_ne
    (fun c hc => (h.third_line c hc).1) h.third_begin (LF :: c :: rest)
  have hbytes : (if h.leading then crlf else []) ++ h.startLine ++ crlf ++ c :: rest =
      (if h.leading then crlf else []) ++ h.first ++ (List.replicate h.spaces₁ SP ++ (h.second ++
        (List.replicate h.spaces₂ SP ++ (h.third ++ CR :: LF :: c :: rest)))) := by
    simp [startLine, crlf]
  rw [← hbytes] at hsplit
  simp only [startLineVerdict, hsplit, ne_eq, not_true_eq_false, if_false,
    dropCRLF_line h.first_word.1.head_ne]

/-! ### The head -/

theorem bytes_append (body : List Byte) : h.bytes ++ body =
    (if h.leading then crlf else []) ++ h.startLine ++ crlf ++
      (h.fields.flatMap FieldLine.bytes ++ (crlf ++ body)) := by
  simp [bytes]

/-- A head with a field line is accepted. -/
theorem outputs_bytes (hfields : h.fields ≠ []) (body : List Byte) :
    Outputs verdict .startLine (h.bytes ++ body)
      (.startLine h.first h.second h.third :: h.fields.map FieldLine.report)
      (some (.final (some .complete), body)) := by
  obtain ⟨c, l, heq, -, hc⟩ := fields_head h.fields body
  have hout := outputs_fields h.fields body
  rw [bytes_append, heq]
  rw [heq] at hout
  refine .emit ?_ hout
  have hspace : ¬ isspace c = true := fun hs => hfields (hc.mp hs)
  rw [verdict, startLineVerdict_bytes, if_neg hspace]

/-- The CR of the empty line is whitespace behind the start line. -/
theorem outputs_noFields (hfields : h.fields = []) (body : List Byte) :
    Outputs verdict .startLine (h.bytes ++ body) []
      (some (.final (some .badRequest), h.bytes ++ body)) := by
  obtain ⟨c, l, heq, -, hc⟩ := fields_head h.fields body
  rw [bytes_append, heq]
  refine .stop ?_
  rw [verdict, startLineVerdict_bytes, if_pos (hc.mpr hfields)]

/-- What a session on a message has in its memory. -/
theorem take_bytes (hM : h.bytes.length ≤ M) (body : List Byte) :
    (h.bytes ++ body).take M = h.bytes ++ body.take (M - h.bytes.length) := by
  rw [List.take_append, List.take_of_length_le hM]

/-- All sessions on the message come to an end, as the head says, with the body behind it. -/
def Accepted (h : MessageHead) (body : List Byte) (M : Nat) : Prop :=
  Runs.Ends Session.step Session.Done Session.outcome (.init (.empty M) (h.bytes ++ body))
    (h.reports, some body)

theorem accepted_of_fields (hfields : h.fields ≠ []) (hM : h.bytes.length ≤ M) (body : List Byte) :
    h.Accepted body M := by
  have hout := h.outputs_bytes hfields (body.take (M - h.bytes.length))
  rw [← h.take_bytes hM] at hout
  have hbody : body.take (M - h.bytes.length) ++ (h.bytes ++ body).drop M = body := by
    rw [List.drop_append, List.drop_eq_nil_of_le hM, List.nil_append, List.take_append_drop]
  have hends := Session.ends_of_outputs hout
  rwa [Session.body, hbody] at hends

/-- A head without fields is refused, whatever follows. -/
theorem not_accepted_of_noFields (hfields : h.fields = []) (hM : h.bytes.length ≤ M)
    (body : List Byte) : ¬ h.Accepted body M := by
  have hout := h.outputs_noFields hfields (body.take (M - h.bytes.length))
  rw [← h.take_bytes hM] at hout
  intro haccepted
  have heq := haccepted.unique (Session.ends_of_outputs hout)
  simp [Session.body] at heq

end MessageHead

/-- CORRECT: a well-formed head that fits in the memory is reported part by part, if and only if it
    has a field line. -/
theorem head_accepted_iff (h : MessageHead) (body : List Byte) (M : Nat) (hM : h.bytes.length ≤ M) :
    h.Accepted body M ↔ h.fields ≠ [] :=
  ⟨fun haccepted hfields => h.not_accepted_of_noFields hfields hM body haccepted,
    fun hfields => h.accepted_of_fields hfields hM body⟩

/-- The lines of "GET / HTTP/1.1" with the given fields. -/
def getRoot (fields : List FieldLine) : MessageHead where
  leading := false
  first := [71, 69, 84]
  second := [47]
  third := [72, 84, 84, 80, 47, 49, 46, 49]
  spaces₁ := 1
  spaces₂ := 1
  fields := fields
  first_word := by simp [NoCRLF, CR, LF, SP]
  second_ne := by decide
  second_word := by simp [NoCRLF, CR, LF, SP]
  third_line := by simp [NoCRLF, CR, LF]
  third_begin := by decide
  spaces₁_pos := Nat.one_pos
  spaces₂_pos := Nat.one_pos

/-- "a: b", continued by a line " c". -/
def foldedField : FieldLine where
  name := [97]
  value := [SP, 98]
  folds := [{ space := SP, text := [99], space_ws := .inl rfl, text_line := by simp [NoCRLF, CR, LF] }]
  name_ne := by decide
  name_token := by simp [isTchar]
  value_line := by simp [NoCRLF, CR, LF, SP]

theorem head_accepted_folded : (getRoot [foldedField]).bytes.length ≤ 30 ∧
    ((getRoot [foldedField]).Accepted [104, 105] 30 ↔ (getRoot [foldedField]).fields ≠ []) :=
  ⟨by decide, head_accepted_iff (getRoot [foldedField]) [104, 105] 30 (by decide)⟩

/-- "GET / HTTP/1.1" without a field is not accepted. -/
theorem head_not_accepted : (getRoot []).bytes.length ≤ 64 ∧ ¬ (getRoot []).Accepted [] 64 :=
  ⟨by decide, (getRoot []).not_accepted_of_noFields rfl (by decide) []⟩

end Jinx.Http
