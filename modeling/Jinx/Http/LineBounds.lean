import Jinx.Http.MessageHead

/-! Where the parser finds the end of a line.

    `parse_start_line` looks for two spaces and then for a CR, `parse_header` for a colon and then for a
    CR, each in everything that was received. `FromOneLine` and `FromOneField` say that what is reported
    was one line. That is so if and only if the bytes that are looked for come in the right order:
    `WordsOnFirstLine`, `ColonOnFirstLine`. -/

namespace Jinx.Http

namespace HTTPParser

variable {p p' : HTTPParser} {w l v rest : List Byte}

/-! ### The start line -/

/-- A byte that does not end a line. -/
def inLine (c : Byte) : Bool := c != CR && c != LF

/-- The line has two words, and there is a space behind the second one. -/
def TwoWords (line : List Byte) : Prop :=
  ((line.dropWhile (· != SP)).dropWhile (· == SP)).dropWhile (· != SP) ≠ []

/-- Behind an empty line that is skipped there are two words with a space behind each, then the first
    byte that ends a line is a CR. -/
def WordsOnFirstLine (w : List Byte) : Prop :=
  TwoWords ((dropCRLF w).takeWhile inLine) ∧ ((dropCRLF w).dropWhile inLine).head? = some CR

instance (w : List Byte) : Decidable (WordsOnFirstLine w) :=
  inferInstanceAs (Decidable (_ ≠ [] ∧ _ = some CR))

/-- The bytes are one line, after at most one empty line, and the parts are what is on it. -/
def FromOneLine (consumed first second third : List Byte) : Prop :=
  ∃ leading : Bool, ∃ m n : Nat,
    consumed = (if leading then crlf else []) ++
      (first ++ (List.replicate (m + 1) SP ++ (second ++ (List.replicate (n + 1) SP ++ third)))) ++ crlf ∧
    NoCRLF first ∧ NoCRLF second ∧ NoCRLF third ∧ (∀ c ∈ first, c ≠ SP) ∧ ∀ c ∈ second, c ≠ SP

/-- What has been consumed is the line of the three parts. -/
def StartLineBounded (p p' : HTTPParser) : Prop :=
  ∃ consumed, p.buffer.window = consumed ++ p'.buffer.window ∧
    FromOneLine consumed p'.startLineFirst p'.startLineSecond p'.startLineThird

theorem readMore_ne_pause (h : p.readMore = (p', .pause)) : False := by
  unfold readMore at h
  split at h <;> simp at h

/-- The only way to report a start line. -/
theorem parseStartLine_pause (h : p.parseStartLine = (p', .pause)) :
    ∃ first, splitStartLine p.buffer.window =
        (first, p'.startLineSecond, p'.startLineThird, CR :: LF :: p'.buffer.window) ∧
      p'.startLineFirst = dropCRLF first := by
  rcases hs : splitStartLine p.buffer.window with ⟨first, second, third, l⟩
  have hl : ∀ c l', l = c :: l' → c = CR := by
    intro c l' hl
    simp only [splitStartLine, Prod.mk.injEq] at hs
    have hcr := List.head?_dropWhile_not (· != CR)
      ((((p.buffer.window.dropWhile (· != SP)).dropWhile (· == SP)).dropWhile (· != SP)).dropWhile
        (· == SP))
    rw [hs.2.2.2, hl] at hcr
    simpa using hcr
  rcases l with _ | ⟨c, _ | ⟨lf, _ | ⟨end_, l⟩⟩⟩ <;> simp only [parseStartLine, hs] at h
  · exact (readMore_ne_pause h).elim
  · exact (readMore_ne_pause h).elim
  · exact (readMore_ne_pause h).elim
  obtain rfl := hl c _ rfl
  obtain ⟨pre, hpre⟩ : end_ :: l <:+ p.buffer.window :=
    (List.suffix_cons_iff.mpr (.inr (List.suffix_cons _ _))).trans (splitStartLine_suffix hs)
  rw [BufferView.consume_to hpre.symm] at h
  split at h
  · simp at h
  · split at h
    · simp at h
    · obtain rfl := (Prod.mk.inj h).1
      obtain rfl := not_not.mp ‹_›
      exact ⟨first, rfl, rfl⟩

/-- A word, and the spaces behind it. -/
theorem word_split (h : l.dropWhile (· != SP) ≠ []) :
    ∃ word n rest, l = word ++ (List.replicate (n + 1) SP ++ rest) ∧ (∀ c ∈ word, c ≠ SP) ∧
      rest.head? ≠ some SP ∧ (l.dropWhile (· != SP)).dropWhile (· == SP) = rest := by
  obtain ⟨c, l', hl⟩ := List.exists_cons_of_ne_nil h
  obtain rfl : c = SP := by
    have hc := List.head?_dropWhile_not (· != SP) l
    simpa [hl] using hc
  have hspaces : l'.takeWhile (· == SP) = List.replicate (l'.takeWhile (· == SP)).length SP :=
    List.eq_replicate_of_mem fun c hc => by simpa using List.mem_takeWhile_imp hc
  refine ⟨l.takeWhile (· != SP), (l'.takeWhile (· == SP)).length, l'.dropWhile (· == SP), ?_, ?_, ?_, ?_⟩
  · calc l = l.takeWhile (· != SP) ++ l.dropWhile (· != SP) := List.takeWhile_append_dropWhile.symm
      _ = l.takeWhile (· != SP) ++ SP :: (l'.takeWhile (· == SP) ++ l'.dropWhile (· == SP)) := by
        rw [hl, List.takeWhile_append_dropWhile]
      _ = _ := by rw [List.replicate_succ, List.cons_append, ← hspaces]
  · intro c hc
    simpa using List.mem_takeWhile_imp hc
  · intro hhead
    have hc := List.head?_dropWhile_not (· == SP) l'
    rw [hhead] at hc
    simp at hc
  · rw [hl]
    simp

theorem dropWhile_ne_nil {q : Byte → Bool} (h : l.dropWhile q ≠ []) : l ≠ [] := by
  rintro rfl
  exact h rfl

/-- A line with two words. -/
theorem TwoWords.split {line : List Byte} (h : TwoWords line) :
    ∃ first m second n third, line = first ++ (List.replicate (m + 1) SP ++ (second ++
        (List.replicate (n + 1) SP ++ third))) ∧
      (∀ c ∈ first, c ≠ SP) ∧ (∀ c ∈ second, c ≠ SP) ∧ second ≠ [] ∧ third.head? ≠ some SP := by
  obtain ⟨first, m, l, rfl, hfirst, hl, hskip⟩ := word_split (dropWhile_ne_nil (dropWhile_ne_nil h))
  rw [TwoWords, hskip] at h
  obtain ⟨second, n, third, rfl, hsecond, hthird, -⟩ := word_split h
  refine ⟨first, m, second, n, third, rfl, hfirst, hsecond, ?_, hthird⟩
  rintro rfl
  exact hl rfl

/-- The words of a line are found in it. -/
theorem twoWords_of_split {first second : List Byte} (m n : Nat) (third : List Byte)
    (h₁ : ∀ c ∈ first, c ≠ SP) (h₂ : ∀ c ∈ second, c ≠ SP) (hne : second ≠ []) :
    TwoWords (first ++ (List.replicate (m + 1) SP ++ (second ++
      (List.replicate (n + 1) SP ++ third)))) := by
  have hsecond : (second ++ (List.replicate (n + 1) SP ++ third)).head? ≠ some SP := by
    rcases second with _ | ⟨c, second⟩
    · exact absurd rfl hne
    · simpa using h₂ c List.mem_cons_self
  rw [TwoWords, (find_space h₁ m.succ_pos _).2, skip_spaces hsecond, (find_space h₂ n.succ_pos _).2]
  simp

/-- A start line that is reported has a second part. -/
theorem splitStartLine_second_ne {first second third : List Byte}
    (h : splitStartLine w = (first, second, third, l)) (hl : l ≠ []) : second ≠ [] := by
  simp only [splitStartLine, Prod.mk.injEq] at h
  obtain ⟨-, rfl, -, rfl⟩ := h
  have hhead := List.head?_dropWhile_not (· == SP) (w.dropWhile (· != SP))
  have hne := dropWhile_ne_nil (dropWhile_ne_nil (dropWhile_ne_nil hl))
  intro hnil
  rcases hfrom : (w.dropWhile (· != SP)).dropWhile (· == SP) with _ | ⟨c, l'⟩
  · exact hne hfrom
  · rw [hfrom] at hhead hnil
    have hc : (c != SP) = true := by simpa using hhead
    simp [hc] at hnil

theorem noCRLF_append : NoCRLF (w ++ l) ↔ NoCRLF w ∧ NoCRLF l := by
  simp only [NoCRLF, List.mem_append, or_imp, forall_and]
  exact and_and_and_comm

theorem noCRLF_takeWhile (w : List Byte) : NoCRLF (w.takeWhile inLine) := by
  intro c hc
  simpa [inLine] using List.mem_takeWhile_imp hc

/-- A line is what comes before its CR. -/
theorem line_at (h : NoCRLF l) (rest : List Byte) :
    (l ++ CR :: rest).takeWhile inLine = l ∧ (l ++ CR :: rest).dropWhile inLine = CR :: rest :=
  find_at (fun c hc => by simpa [inLine] using h c hc) (by decide) rest

/-- What `dropCRLF` skips. -/
theorem dropCRLF_eq (w : List Byte) :
    ∃ leading : Bool, w = (if leading then crlf else []) ++ dropCRLF w := by
  unfold dropCRLF
  split
  · exact ⟨true, rfl⟩
  · exact ⟨false, rfl⟩

theorem head_ne_of_noCRLF (h : NoCRLF w) (hne : w ≠ []) (l : List Byte) :
    (w ++ l).head? ≠ some CR := by
  rcases w with _ | ⟨c, w⟩
  · exact absurd rfl hne
  · simpa using (h c List.mem_cons_self).1

theorem noCRLF_spaces (n : Nat) : NoCRLF (List.replicate n SP) := by
  intro c hc
  rw [List.eq_of_mem_replicate hc]
  exact ⟨by decide, by decide⟩

theorem StartLineBounded.wordsOnFirstLine (h : p.parseStartLine = (p', .pause))
    (hb : StartLineBounded p p') : WordsOnFirstLine p.buffer.window := by
  obtain ⟨first, hs, -⟩ := parseStartLine_pause h
  have hne := splitStartLine_second_ne hs (by simp)
  obtain ⟨consumed, hw, leading, m, n, rfl, h₁, h₂, h₃, hsp₁, hsp₂⟩ := hb
  have hline : NoCRLF (p'.startLineFirst ++ (List.replicate (m + 1) SP ++ (p'.startLineSecond ++
      (List.replicate (n + 1) SP ++ p'.startLineThird)))) := by
    simp only [noCRLF_append]
    exact ⟨h₁, noCRLF_spaces _, h₂, noCRLF_spaces _, h₃⟩
  have hwords := twoWords_of_split m n p'.startLineThird hsp₁ hsp₂ hne
  have hdrop := dropCRLF_line (head_ne_of_noCRLF hline (dropWhile_ne_nil (dropWhile_ne_nil
    (dropWhile_ne_nil hwords))) (CR :: LF :: p'.buffer.window)) leading
  obtain ⟨htake, hdrop'⟩ := line_at hline (LF :: p'.buffer.window)
  rw [List.append_assoc, List.append_assoc] at hw
  change p.buffer.window = _ ++ (_ ++ CR :: LF :: p'.buffer.window) at hw
  rw [WordsOnFirstLine, hw, hdrop, htake, hdrop']
  exact ⟨hwords, rfl⟩

theorem WordsOnFirstLine.bounded (h : p.parseStartLine = (p', .pause))
    (hwords : WordsOnFirstLine p.buffer.window) : StartLineBounded p p' := by
  obtain ⟨first', hs, hfirst⟩ := parseStartLine_pause h
  obtain ⟨leading, hw⟩ := dropCRLF_eq p.buffer.window
  obtain ⟨htwo, hcr⟩ := hwords
  obtain ⟨first, m, second, n, third, hline, h₁, h₂, hne, hthird⟩ := htwo.split
  obtain ⟨rest, hrest⟩ := List.head?_eq_some_iff.mp hcr
  have hno := noCRLF_takeWhile (dropCRLF p.buffer.window)
  rw [hline] at hno
  simp only [noCRLF_append] at hno
  have hbody : dropCRLF p.buffer.window = first ++ (List.replicate (m + 1) SP ++ (second ++
      (List.replicate (n + 1) SP ++ (third ++ CR :: rest)))) := by
    rw [← List.takeWhile_append_dropWhile (p := inLine) (l := dropCRLF p.buffer.window), hline, hrest]
    simp only [List.append_assoc]
  have hlead : ∀ c ∈ (if leading then crlf else []) ++ first, c ≠ SP := by
    intro c hc
    rcases List.mem_append.mp hc with hc | hc
    · rcases leading with _ | _
      · simp at hc
      · rintro rfl
        exact absurd hc (by decide)
    · exact h₁ c hc
  have hsplit := splitStartLine_words m.succ_pos n.succ_pos hlead h₂ hne
    (fun c hc => (hno.2.2.2.2 c hc).1) hthird rest
  rw [List.append_assoc, ← hbody, ← hw, hs] at hsplit
  simp only [Prod.mk.injEq, List.cons.injEq, true_and] at hsplit
  obtain ⟨rfl, hsecond, hthird', hrest'⟩ := hsplit
  rw [dropCRLF_line hno.1.head_ne leading] at hfirst
  rw [hbody] at hw
  refine ⟨(if leading then crlf else []) ++ (first ++ (List.replicate (m + 1) SP ++ (second ++
    (List.replicate (n + 1) SP ++ third)))) ++ crlf, ?_, ?_⟩
  · rw [hw, ← hrest']
    simp [crlf]
  · rw [hfirst, hsecond, hthird']
    exact ⟨leading, m, n, rfl, hno.1, hno.2.2.1, hno.2.2.2.2, h₁, h₂⟩

/-- BOUNDED: what is reported as a start line was one line, if and only if there are two words with a
    space behind each before the first byte that ends a line, and that byte is a CR. -/
theorem startLine_bounded_iff (p p' : HTTPParser) (h : p.parseStartLine = (p', .pause)) :
    StartLineBounded p p' ↔ WordsOnFirstLine p.buffer.window :=
  ⟨fun hb => hb.wordsOnFirstLine h, fun hwords => hwords.bounded h⟩

/-- A parser that has received the bytes. -/
def received (st : HTTPParserState) (bytes : List Byte) : HTTPParser where
  buffer := { window := bytes, capacity := 64 }
  state := st

/-- "GET / HTTP/1.1" and the name of a field. -/
theorem startLine_bounded_getRoot :
    (received .startLine [71, 69, 84, SP, 47, SP, 72, 84, 84, 80, 47, 49, 46, 49, CR, LF, 65]
      ).parseStartLine.2 = .pause ∧
    (StartLineBounded (received .startLine
        [71, 69, 84, SP, 47, SP, 72, 84, 84, 80, 47, 49, 46, 49, CR, LF, 65])
      (received .startLine
        [71, 69, 84, SP, 47, SP, 72, 84, 84, 80, 47, 49, 46, 49, CR, LF, 65]).parseStartLine.1 ↔
      WordsOnFirstLine [71, 69, 84, SP, 47, SP, 72, 84, 84, 80, 47, 49, 46, 49, CR, LF, 65]) :=
  ⟨by decide, startLine_bounded_iff _ _ (by rfl)⟩

/-- "GET /" has no version: the path goes on to the space of "Host: a", and "a" is the version. -/
theorem startLine_crosses_lines : ¬ ∀ p p' : HTTPParser, p.parseStartLine = (p', .pause) →
    StartLineBounded p p' := by
  intro hall
  let p := received .startLine
    [71, 69, 84, SP, 47, CR, LF, 72, 111, 115, 116, COLON, SP, 97, CR, LF, 66]
  have hpause : p.parseStartLine = (p.parseStartLine.1, .pause) := by rfl
  have hsecond : p.parseStartLine.1.startLineSecond = [47, CR, LF, 72, 111, 115, 116, COLON] := by rfl
  obtain ⟨consumed, -, leading, m, n, -, -, hline, -⟩ := hall p p.parseStartLine.1 hpause
  rw [hsecond] at hline
  exact (hline CR (by decide)).1 rfl

/-! ### The field line -/

/-- From the colon on: there is a LF without CR before the line ends. -/
def bareLF : List Byte → Bool
  | [] => false
  | c :: l =>
    if c ≠ CR then c == LF || bareLF l
    else
      match l with
      | lf :: d :: l => lf == LF && (d == SP || d == HTAB) && bareLF l
      | _ => false

/-- The colon comes before the first byte that ends a line, and from there on each LF has its CR. -/
def ColonOnFirstLine (w : List Byte) : Prop :=
  NoCRLF (w.takeWhile (· != COLON)) ∧ bareLF (w.dropWhile (· != COLON)) = false

/-- The bytes are a name, a colon, a text, continuations of it, and CRLF. -/
def FromOneField (consumed name value : List Byte) : Prop :=
  ∃ (text : List Byte) (folds : List Fold),
    consumed = name ++ COLON :: (text ++ folds.flatMap Fold.bytes ++ crlf) ∧
    NoCRLF name ∧ (∀ c ∈ name, c ≠ COLON) ∧ NoCRLF text ∧
    value = FieldLine.strip (text ++ folds.flatMap Fold.unfolded) ∧ NoCRLF value

/-- What has been consumed is the line of the field. -/
def FieldBounded (p p' : HTTPParser) : Prop :=
  ∃ consumed, p.buffer.window = consumed ++ p'.buffer.window ∧
    FromOneField consumed p'.fieldName p'.fieldValue

theorem bareLF_cons {c : Byte} (hc : c ≠ CR) : bareLF (c :: l) = (c == LF || bareLF l) := by
  rw [bareLF.eq_def]
  exact if_pos hc

theorem bareLF_fold {c : Byte} (hc : c = SP ∨ c = HTAB) : bareLF (CR :: LF :: c :: l) = bareLF l := by
  simp [bareLF, hc]

theorem bareLF_found {c : Byte} (hc : ¬ (c = SP ∨ c = HTAB)) : bareLF (CR :: LF :: c :: l) = false := by
  simp [bareLF, hc]

theorem bareLF_text (h : NoCRLF w) (l : List Byte) : bareLF (w ++ l) = bareLF l := by
  induction w with
  | nil => rfl
  | cons c w ih =>
    obtain ⟨hcr, hlf⟩ := h c List.mem_cons_self
    rw [List.cons_append, bareLF_cons hcr, ih fun d hd => h d (List.mem_cons_of_mem _ hd)]
    simp [hlf]

theorem bareLF_folds (folds : List Fold) (l : List Byte) :
    bareLF (folds.flatMap Fold.bytes ++ l) = bareLF l := by
  induction folds with
  | nil => rfl
  | cons f folds ih =>
    simp only [List.flatMap_cons, Fold.bytes, crlf, List.cons_append, List.nil_append,
      List.append_assoc]
    rw [bareLF_fold f.space_ws, bareLF_text f.text_line, ih]

/-- The line ends where no continuation follows. -/
theorem scanValue_rest (h : scanValue w = .found v rest) :
    ∃ c l, rest = c :: l ∧ ¬ (c = SP ∨ c = HTAB) := by
  induction w using scanValue_induct generalizing v with
  | hnil | hcr | hcrlf => cases h
  | hcons c l hc ih =>
    rw [scanValue_cons hc, Value.after_found] at h
    obtain ⟨v', h, -⟩ := h
    exact ih h
  | hbare lf l hlf =>
    rw [scanValue_bare hlf] at h
    cases h
  | hfold c l hc ih =>
    rw [scanValue_fold hc, Value.after_found] at h
    obtain ⟨v', h, -⟩ := h
    exact ih h
  | hfound c l hc =>
    rw [scanValue_found hc] at h
    cases h
    exact ⟨c, l, rfl, hc⟩

/-- Without a bare LF, a scan passes a text and its continuations. -/
theorem scanValue_lines (h : scanValue w = .found v rest) (hlf : bareLF w = false) :
    ∃ (text : List Byte) (folds : List Fold), NoCRLF text ∧
      w = text ++ folds.flatMap Fold.bytes ++ crlf ++ rest ∧
      v = text ++ folds.flatMap Fold.unfolded := by
  induction w using scanValue_induct generalizing v with
  | hnil | hcr | hcrlf => cases h
  | hcons c l hc ih =>
    rw [scanValue_cons hc, Value.after_found] at h
    obtain ⟨v', h, rfl⟩ := h
    rw [bareLF_cons hc, Bool.or_eq_false_iff] at hlf
    obtain ⟨text, folds, htext, rfl, rfl⟩ := ih h hlf.2
    refine ⟨c :: text, folds, ?_, rfl, rfl⟩
    exact List.forall_mem_cons.mpr ⟨⟨hc, by simpa using hlf.1⟩, htext⟩
  | hbare lf l hne =>
    rw [scanValue_bare hne] at h
    cases h
  | hfold c l hc ih =>
    rw [scanValue_fold hc, Value.after_found] at h
    obtain ⟨v', h, rfl⟩ := h
    rw [bareLF_fold hc] at hlf
    obtain ⟨text, folds, htext, rfl, rfl⟩ := ih h hlf
    refine ⟨[], { space := c, text := text, space_ws := hc, text_line := htext } :: folds, ?_, ?_, ?_⟩
    · simp [NoCRLF]
    · simp [Fold.bytes, crlf]
    · simp [Fold.unfolded]
  | hfound c l hc =>
    rw [scanValue_found hc] at h
    cases h
    exact ⟨[], [], by simp [NoCRLF], rfl, rfl⟩

theorem takeField_pause {name value : List Byte} (hw : p.buffer.window = name ++ (value ++ CR :: LF :: rest))
    (h : p.takeField name value rest = (p', .pause)) :
    p'.fieldName = name ∧ p'.fieldValue = trim value ∧ p'.buffer.window = rest := by
  have hw' : p.buffer.window = (name ++ (value ++ [CR, LF])) ++ rest := by simp [hw]
  unfold takeField at h
  rw [BufferView.consume_to hw'] at h
  dsimp only at h
  split at h
  · simp at h
  · obtain rfl := (Prod.mk.inj h).1
    exact ⟨rfl, rfl, rfl⟩

/-- The only way to report a field. -/
theorem parseHeader_pause (h : p.parseHeader = (p', .pause)) :
    ∃ l v, p.buffer.window = p'.fieldName ++ COLON :: l ∧ (∀ c ∈ p'.fieldName, c ≠ COLON) ∧
      scanValue (COLON :: l) = .found v p'.buffer.window ∧ p'.fieldValue = trim v := by
  rcases header_cases p.buffer.window with hw | ⟨l, hw⟩ | hw
  · rw [parseHeader_short hw] at h
    exact (readMore_ne_pause h).elim
  · obtain ⟨p'', heq, -⟩ := parseHeader_end hw
    simp [heq] at h
  · rw [parseHeader_begun hw] at h
    rcases colon_split p.buffer.window with hno | ⟨name, l, hname, heq⟩
    · rw [List.dropWhile_eq_nil_iff.mpr (by simpa using hno)] at h
      exact (readMore_ne_pause h).elim
    · rw [heq, (takeWhile_name hname l).1, (takeWhile_name hname l).2] at h
      cases hv : scanValue (COLON :: l) with
      | more v =>
        rw [hv] at h
        exact (readMore_ne_pause h).elim
      | bare v => simp [hv] at h
      | found v rest =>
        rw [hv] at h
        obtain ⟨hn, hval, hrest⟩ := takeField_pause rfl h
        exact ⟨l, v, by rw [hn, heq], by rwa [hn], by rw [hrest, hv], hval⟩

theorem noCRLF_folds (folds : List Fold) : NoCRLF (folds.flatMap Fold.unfolded) := by
  induction folds with
  | nil => simp [NoCRLF]
  | cons f folds ih =>
    rw [List.flatMap_cons, noCRLF_append]
    exact ⟨noCRLF_append.mpr ⟨by simp [NoCRLF, SP, CR, LF], f.text_line⟩, ih⟩

theorem noCRLF_strip (h : NoCRLF l) : NoCRLF (FieldLine.strip l) := by
  intro c hc
  have hsub := (List.dropWhile_suffix isspace).subset (List.mem_reverse.mp hc)
  exact h c ((List.dropWhile_suffix isspace).subset (List.mem_reverse.mp hsub))

theorem FieldBounded.colonOnFirstLine (h : p.parseHeader = (p', .pause)) (hb : FieldBounded p p') :
    ColonOnFirstLine p.buffer.window := by
  obtain ⟨l, v, -, -, hscan, -⟩ := parseHeader_pause h
  obtain ⟨c, l', hrest, hc⟩ := scanValue_rest hscan
  obtain ⟨consumed, hw, text, folds, rfl, hname, hcolon, htext, -⟩ := hb
  rw [List.append_assoc, List.cons_append] at hw
  rw [ColonOnFirstLine, hw, (takeWhile_name hcolon _).1, (takeWhile_name hcolon _).2]
  refine ⟨hname, ?_⟩
  rw [bareLF_cons (by decide), List.append_assoc, List.append_assoc, bareLF_text htext, bareLF_folds,
    hrest]
  exact bareLF_found hc

theorem ColonOnFirstLine.bounded (h : p.parseHeader = (p', .pause))
    (hcolon : ColonOnFirstLine p.buffer.window) : FieldBounded p p' := by
  obtain ⟨l, v, hw, hname, hscan, hvalue⟩ := parseHeader_pause h
  rw [ColonOnFirstLine, hw, (takeWhile_name hname l).1, (takeWhile_name hname l).2] at hcolon
  obtain ⟨hline, hlf⟩ := hcolon
  rw [scanValue_cons (by decide), Value.after_found] at hscan
  rw [bareLF_cons (by decide)] at hlf
  obtain ⟨v, hscan, rfl⟩ := hscan
  obtain ⟨text, folds, htext, rfl, rfl⟩ := scanValue_lines hscan hlf
  refine ⟨p'.fieldName ++ COLON :: (text ++ folds.flatMap Fold.bytes ++ crlf), by simp [hw],
    text, folds, rfl, hline, hname, htext, hvalue, ?_⟩
  have hlines : NoCRLF (text ++ folds.flatMap Fold.unfolded) :=
    noCRLF_append.mpr ⟨htext, noCRLF_folds folds⟩
  rw [hvalue]
  exact noCRLF_strip hlines

/-- BOUNDED: what is reported as a field was one field line with its continuations, if and only if the
    colon comes before the first byte that ends a line, and from there on each LF has its CR. -/
theorem field_bounded_iff (p p' : HTTPParser) (h : p.parseHeader = (p', .pause)) :
    FieldBounded p p' ↔ ColonOnFirstLine p.buffer.window :=
  ⟨fun hb => hb.colonOnFirstLine h, fun hcolon => hcolon.bounded h⟩

/-- "a: b" with the CR of the empty line behind it. -/
theorem field_bounded_a :
    (received .header [97, COLON, SP, 98, CR, LF, CR]).parseHeader.2 = .pause ∧
    (FieldBounded (received .header [97, COLON, SP, 98, CR, LF, CR])
        (received .header [97, COLON, SP, 98, CR, LF, CR]).parseHeader.1 ↔
      ColonOnFirstLine [97, COLON, SP, 98, CR, LF, CR]) :=
  ⟨by decide, field_bounded_iff _ _ (by rfl)⟩

/-- A line "a" without a colon, the empty line, and "b: c" of what comes after the head: all of it up
    to the colon is the name of one field. -/
theorem field_swallows_head_end : ¬ ∀ p p' : HTTPParser, p.parseHeader = (p', .pause) →
    FieldBounded p p' := by
  intro hall
  let p := received .header [97, CR, LF, CR, LF, 98, COLON, SP, 99, CR, LF, CR]
  have hpause : p.parseHeader = (p.parseHeader.1, .pause) := by rfl
  have hname : p.parseHeader.1.fieldName = [97, CR, LF, CR, LF, 98] := by rfl
  obtain ⟨consumed, -, text, folds, -, hline, -⟩ := hall p p.parseHeader.1 hpause
  rw [hname] at hline
  exact (hline CR (by decide)).1 rfl

end HTTPParser

end Jinx.Http
