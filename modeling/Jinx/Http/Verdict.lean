import Jinx.Http.HTTPParser
import Jinx.Lib.Incremental
import Mathlib.Data.List.TakeWhile

/-! What `HTTPParser` decides.

    `verdict` is the decision on the bytes of the window alone, without the buffer around them;
    `parse_more`, `parse_stop` and `parse_emit` say that `parse` does just that. Bytes that arrive later
    change no decision (`verdict_stable`): a decision needs a byte of look-ahead, and a line that was
    folded in place before it is complete is read again as if it had been folded all the time. -/

namespace Jinx.Http

open Incremental

namespace HTTPParser

variable {w w' v l e rest : List Byte} {p : HTTPParser}

/-! ### What the parser decides -/

/-- The decision of `parse_start_line`. -/
def startLineVerdict (w : List Byte) : Verdict HTTPParserState Report Byte :=
  match splitStartLine w with
  | (first, second, third, _ :: lf :: end_ :: rest) =>
    if lf ≠ LF then .stop (.final (some .badRequest)) w
    else if isspace end_ then .stop (.final (some .badRequest)) w
    else .emit (.startLine (dropCRLF first) second third) .header (end_ :: rest)
  | _ => .more w

/-- The decision of `parse_header` on a line that is not the end of the header. -/
def fieldVerdict (name : List Byte) : Value → Verdict HTTPParserState Report Byte
  | .more w => .more (name ++ w)
  | .bare w => .stop (.final (some .badRequest)) (name ++ w)
  | .found value rest =>
    if name.getLast?.any isspace then .stop (.final (some .badRequest)) rest
    else .emit (.header name (trim value)) .header rest

/-- The decision of `parse_header`. -/
def headerVerdict (w : List Byte) : Verdict HTTPParserState Report Byte :=
  match w with
  | c :: lf :: l =>
    if c = CR ∧ lf = LF then .stop (.final (some .complete)) l
    else fieldVerdict (w.takeWhile (· != COLON)) (scanValue (w.dropWhile (· != COLON)))
  | _ => .more w

def verdict : HTTPParserState → List Byte → Verdict HTTPParserState Report Byte
  | .startLine, w => startLineVerdict w
  | .header, w => headerVerdict w
  | _, w => .stop (.final none) w

/-- The states in which a session parses. -/
def Parsing (q : HTTPParserState) : Prop := q = .startLine ∨ q = .header

/-! ### The loop of `parse_header` -/

theorem Value.after_more {x : Value} : x.after l = .more w ↔ ∃ v, x = .more v ∧ w = l ++ v := by
  cases x <;> simp [Value.after, eq_comm]

theorem Value.after_bare {x : Value} : x.after l = .bare w ↔ ∃ v, x = .bare v ∧ w = l ++ v := by
  cases x <;> simp [Value.after, eq_comm]

theorem Value.after_found {x : Value} :
    x.after l = .found v rest ↔ ∃ v', x = .found v' rest ∧ v = l ++ v' := by
  cases x <;> simp [Value.after, eq_comm, and_comm]

@[simp] theorem Value.after_nil (x : Value) : x.after [] = x := by
  cases x <;> rfl

@[simp] theorem Value.after_after (x : Value) : (x.after l).after w = x.after (w ++ l) := by
  cases x <;> simp [Value.after]

theorem scanValue_cons {c : Byte} (hc : c ≠ CR) : scanValue (c :: l) = (scanValue l).after [c] := by
  rw [scanValue.eq_def]
  exact if_pos hc

theorem scanValue_bare {lf : Byte} (hlf : lf ≠ LF) :
    scanValue (CR :: lf :: l) = .bare (CR :: lf :: l) := by
  rw [scanValue.eq_def]
  simp [hlf]

theorem scanValue_fold {c : Byte} (hc : c = SP ∨ c = HTAB) :
    scanValue (CR :: LF :: c :: l) = (scanValue l).after [SP, SP, SP] := by
  simp [scanValue, hc]

theorem scanValue_found {c : Byte} (hc : ¬ (c = SP ∨ c = HTAB)) :
    scanValue (CR :: LF :: c :: l) = .found [] (c :: l) := by
  simp [scanValue, hc]

/-- The ways a scan can go on: a byte is passed, the line ends, or it is folded. -/
theorem scanValue_induct {P : List Byte → Prop} (hnil : P []) (hcr : P [CR]) (hcrlf : P [CR, LF])
    (hcons : ∀ c l, c ≠ CR → P l → P (c :: l)) (hbare : ∀ lf l, lf ≠ LF → P (CR :: lf :: l))
    (hfold : ∀ c l, (c = SP ∨ c = HTAB) → P l → P (CR :: LF :: c :: l))
    (hfound : ∀ c l, ¬ (c = SP ∨ c = HTAB) → P (CR :: LF :: c :: l)) : ∀ w, P w := by
  intro w
  induction hn : w.length using Nat.strongRecOn generalizing w with
  | _ n ih =>
    have ih' : ∀ l : List Byte, l.length < n → P l := fun l hl => ih l.length hl l rfl
    subst hn
    rcases w with _ | ⟨c, w⟩
    · exact hnil
    rcases eq_or_ne c CR with rfl | hc
    · rcases w with _ | ⟨lf, w⟩
      · exact hcr
      rcases eq_or_ne lf LF with rfl | hlf
      · rcases w with _ | ⟨d, w⟩
        · exact hcrlf
        by_cases hd : d = SP ∨ d = HTAB
        · exact hfold d w hd (ih' w (by simp only [List.length_cons]; omega))
        · exact hfound d w hd
      · exact hbare lf w hlf
    · exact hcons c w hc (ih' w (by simp))

/-- A line that is not complete, and has been folded in place, is scanned again with the bytes that
    have arrived since as the original one would be. -/
theorem scanValue_more (h : scanValue w = .more w') (e : List Byte) :
    scanValue (w' ++ e) = scanValue (w ++ e) := by
  induction w using scanValue_induct generalizing w' with
  | hnil | hcr | hcrlf =>
    cases h
    rfl
  | hcons c l hc ih =>
    rw [scanValue_cons hc, Value.after_more] at h
    obtain ⟨v, hv, rfl⟩ := h
    simp only [List.cons_append, List.nil_append]
    rw [scanValue_cons hc, scanValue_cons hc, ih hv]
  | hbare lf l hlf => simp [scanValue_bare hlf] at h
  | hfold c l hc ih =>
    rw [scanValue_fold hc, Value.after_more] at h
    obtain ⟨v, hv, rfl⟩ := h
    have hsp : SP ≠ CR := by decide
    simp only [List.cons_append, List.nil_append]
    rw [scanValue_fold hc, scanValue_cons hsp, scanValue_cons hsp, scanValue_cons hsp, ih hv]
    simp
  | hfound c l hc => simp [scanValue_found hc] at h

theorem scanValue_append_bare (h : scanValue w = .bare w') (e : List Byte) :
    scanValue (w ++ e) = .bare (w' ++ e) := by
  induction w using scanValue_induct generalizing w' with
  | hnil | hcr | hcrlf => simp [scanValue] at h
  | hcons c l hc ih =>
    rw [scanValue_cons hc, Value.after_bare] at h
    obtain ⟨v, hv, rfl⟩ := h
    rw [List.cons_append, scanValue_cons hc, ih hv]
    rfl
  | hbare lf l hlf =>
    obtain rfl : _ = w' := by simpa [scanValue_bare hlf] using h
    rw [List.cons_append, List.cons_append, scanValue_bare hlf]
  | hfold c l hc ih =>
    rw [scanValue_fold hc, Value.after_bare] at h
    obtain ⟨v, hv, rfl⟩ := h
    simp only [List.cons_append]
    rw [scanValue_fold hc, ih hv]
    rfl
  | hfound c l hc => simp [scanValue_found hc] at h

theorem scanValue_append_found (h : scanValue w = .found v rest) (e : List Byte) :
    scanValue (w ++ e) = .found v (rest ++ e) := by
  induction w using scanValue_induct generalizing v with
  | hnil | hcr | hcrlf => simp [scanValue] at h
  | hcons c l hc ih =>
    rw [scanValue_cons hc, Value.after_found] at h
    obtain ⟨v', hv, rfl⟩ := h
    rw [List.cons_append, scanValue_cons hc, ih hv]
    rfl
  | hbare lf l hlf => simp [scanValue_bare hlf] at h
  | hfold c l hc ih =>
    rw [scanValue_fold hc, Value.after_found] at h
    obtain ⟨v', hv, rfl⟩ := h
    simp only [List.cons_append]
    rw [scanValue_fold hc, ih hv]
    rfl
  | hfound c l hc =>
    obtain ⟨rfl, rfl⟩ : [] = v ∧ c :: l = rest := by simpa [scanValue_found hc] using h
    simp only [List.cons_append]
    exact scanValue_found hc

/-- Folding in place keeps the length; a complete line is shorter by its CR and LF. -/
theorem scanValue_length (w : List Byte) :
    (∀ w', scanValue w = .more w' → w'.length = w.length) ∧
      ∀ v rest, scanValue w = .found v rest → v.length + 2 + rest.length = w.length := by
  induction w using scanValue_induct with
  | hnil | hcr | hcrlf => simp [scanValue]
  | hcons c l hc ih =>
    rw [scanValue_cons hc]
    refine ⟨fun w' h => ?_, fun v rest h => ?_⟩
    · obtain ⟨v, hv, rfl⟩ := Value.after_more.mp h
      simp [ih.1 v hv]
    · obtain ⟨v', hv, rfl⟩ := Value.after_found.mp h
      have hlen := ih.2 v' rest hv
      simp only [List.length_append, List.length_cons, List.length_nil]
      omega
  | hbare lf l hlf => simp [scanValue_bare hlf]
  | hfold c l hc ih =>
    rw [scanValue_fold hc]
    refine ⟨fun w' h => ?_, fun v rest h => ?_⟩
    · obtain ⟨v, hv, rfl⟩ := Value.after_more.mp h
      simp [ih.1 v hv]
    · obtain ⟨v', hv, rfl⟩ := Value.after_found.mp h
      have hlen := ih.2 v' rest hv
      simp only [List.length_append, List.length_cons, List.length_nil]
      omega
  | hfound c l hc =>
    rw [scanValue_found hc]
    refine ⟨by simp, fun v rest h => ?_⟩
    obtain ⟨rfl, rfl⟩ : [] = v ∧ c :: l = rest := by simpa using h
    simp only [List.length_cons, List.length_nil]
    omega

/-! ### Later bytes change no decision -/

/-- A byte that `std::find` has found stays where it is. -/
theorem find_append {q : Byte → Bool} (h : w.dropWhile q ≠ []) (e : List Byte) :
    (w ++ e).takeWhile q = w.takeWhile q ∧ (w ++ e).dropWhile q = w.dropWhile q ++ e := by
  induction w with
  | nil => simp at h
  | cons c w ih =>
    rcases hc : q c with _ | _
    · simp [hc]
    · rw [List.dropWhile_cons_of_pos hc] at h ⊢
      obtain ⟨htake, hdrop⟩ := ih h
      rw [List.cons_append, List.takeWhile_cons_of_pos hc, List.takeWhile_cons_of_pos hc,
        List.dropWhile_cons_of_pos hc, htake, hdrop]
      exact ⟨rfl, rfl⟩

/-- A `std::find` stops at the first byte that is looked for. -/
theorem find_at {q : Byte → Bool} {d : Byte} (h : ∀ c ∈ w, q c = true) (hd : q d = false)
    (l : List Byte) : (w ++ d :: l).takeWhile q = w ∧ (w ++ d :: l).dropWhile q = d :: l := by
  rw [List.takeWhile_append_of_pos h, List.dropWhile_append_of_pos h]
  simp [hd]

theorem splitStartLine_append {first second third l : List Byte}
    (h : splitStartLine w = (first, second, third, l)) (hl : l ≠ []) (e : List Byte) :
    splitStartLine (w ++ e) = (first, second, third, l ++ e) := by
  simp only [splitStartLine, Prod.mk.injEq] at h
  obtain ⟨rfl, rfl, rfl, rfl⟩ := h
  have hne : ∀ {v : List Byte} {q : Byte → Bool}, v.dropWhile q ≠ [] → v ≠ [] := by
    rintro v q hv rfl
    exact hv rfl
  -- the last byte that is looked for was found, so each of those before it was found
  obtain ⟨ht₃, hd₃⟩ := find_append hl e
  have h₂ := hne hl
  obtain ⟨-, hs₂⟩ := find_append h₂ e
  obtain ⟨ht₂, hd₂⟩ := find_append (hne h₂) e
  obtain ⟨-, hs₁⟩ := find_append (hne (hne h₂)) e
  obtain ⟨ht₁, hd₁⟩ := find_append (hne (hne (hne h₂))) e
  simp only [splitStartLine]
  rw [ht₁, hd₁, hs₁, ht₂, hd₂, hs₂, ht₃, hd₃]

theorem startLineVerdict_cases (w : List Byte) :
    startLineVerdict w = .more w ∨ ∃ first second third c lf end_ rest,
      splitStartLine w = (first, second, third, c :: lf :: end_ :: rest) ∧
      startLineVerdict w =
        if lf ≠ LF then .stop (.final (some .badRequest)) w
        else if isspace end_ then .stop (.final (some .badRequest)) w
        else .emit (.startLine (dropCRLF first) second third) .header (end_ :: rest) := by
  rcases hw : splitStartLine w with ⟨first, second, third, l⟩
  unfold startLineVerdict
  rcases l with _ | ⟨c, _ | ⟨lf, _ | ⟨end_, rest⟩⟩⟩
  · exact .inl (by simp [hw])
  · exact .inl (by simp [hw])
  · exact .inl (by simp [hw])
  · exact .inr ⟨first, second, third, c, lf, end_, rest, rfl, by simp only [hw]⟩

theorem startLineVerdict_append {first second third rest : List Byte} {c lf end_ : Byte}
    (h : splitStartLine w = (first, second, third, c :: lf :: end_ :: rest)) (e : List Byte) :
    startLineVerdict (w ++ e) =
      if lf ≠ LF then .stop (.final (some .badRequest)) (w ++ e)
      else if isspace end_ then .stop (.final (some .badRequest)) (w ++ e)
      else .emit (.startLine (dropCRLF first) second third) .header (end_ :: rest ++ e) := by
  have hs := splitStartLine_append h (by simp) e
  simp only [startLineVerdict, hs, List.cons_append]

/-- The name of a field ends before the colon, where the scan begins. -/
theorem colon_split (w : List Byte) :
    (∀ c ∈ w, c ≠ COLON) ∨
      ∃ name l, (∀ c ∈ name, c ≠ COLON) ∧ w = name ++ COLON :: l := by
  induction w with
  | nil => exact .inl (by simp)
  | cons c w ih =>
    rcases eq_or_ne c COLON with rfl | hc
    · exact .inr ⟨[], w, by simp, rfl⟩
    · rcases ih with h | ⟨name, l, hname, rfl⟩
      · exact .inl (by simpa [hc] using h)
      · exact .inr ⟨c :: name, l, by simpa [hc] using hname, rfl⟩

theorem takeWhile_name {name : List Byte} (h : ∀ c ∈ name, c ≠ COLON) (l : List Byte) :
    (name ++ COLON :: l).takeWhile (· != COLON) = name ∧
      (name ++ COLON :: l).dropWhile (· != COLON) = COLON :: l :=
  find_at (by simpa using h) (by decide) l

/-- Two bytes that are not the end of the header. -/
def Begun (w : List Byte) : Prop := ∃ c lf l, w = c :: lf :: l ∧ ¬ (c = CR ∧ lf = LF)

theorem Begun.append (h : Begun w) (e : List Byte) : Begun (w ++ e) := by
  obtain ⟨c, lf, l, rfl, h⟩ := h
  exact ⟨c, lf, l ++ e, rfl, h⟩

theorem headerVerdict_begun (h : Begun w) : headerVerdict w =
    fieldVerdict (w.takeWhile (· != COLON)) (scanValue (w.dropWhile (· != COLON))) := by
  obtain ⟨c, lf, l, rfl, h⟩ := h
  exact if_neg h

/-- A line without a colon is not complete, whatever is in it. -/
theorem headerVerdict_noColon (h : ∀ c ∈ w, c ≠ COLON) (hw : Begun w) : headerVerdict w = .more w := by
  have hall : ∀ c ∈ w, (c != COLON) = true := by simpa using h
  rw [headerVerdict_begun hw, List.takeWhile_eq_self_iff.mpr hall, List.dropWhile_eq_nil_iff.mpr hall]
  simp [scanValue, fieldVerdict]

theorem headerVerdict_field {name : List Byte} (h : ∀ c ∈ name, c ≠ COLON)
    (hw : Begun (name ++ COLON :: l)) :
    headerVerdict (name ++ COLON :: l) = fieldVerdict name (scanValue (COLON :: l)) := by
  rw [headerVerdict_begun hw, (takeWhile_name h l).1, (takeWhile_name h l).2]

/-- What follows the colon does not matter for the two bytes. -/
theorem Begun.rewrite {name : List Byte} {l' : List Byte} (h : ∀ c ∈ name, c ≠ COLON)
    (hw : Begun (name ++ COLON :: l)) (hlen : l'.length = l.length) :
    Begun (name ++ COLON :: l') := by
  obtain ⟨c, lf, m, heq, hne⟩ := hw
  rcases name with _ | ⟨a, _ | ⟨b, name⟩⟩
  · rcases l' with _ | ⟨x, l'⟩
    · have hl : l = [] := List.length_eq_zero_iff.mp hlen.symm
      simp [hl] at heq
    · exact ⟨COLON, x, l', rfl, fun hc => absurd hc.1 (by decide)⟩
  · exact ⟨a, COLON, l', rfl, fun hc => absurd hc.2 (by decide)⟩
  · obtain ⟨rfl, rfl, -⟩ := by simpa using heq
    exact ⟨a, b, name ++ COLON :: l', rfl, hne⟩

theorem scanValue_colon_more (h : scanValue (COLON :: l) = .more w') :
    ∃ l', w' = COLON :: l' ∧ l'.length = l.length := by
  have hcolon : COLON ≠ CR := by decide
  rw [scanValue_cons hcolon, Value.after_more] at h
  obtain ⟨l', hl', rfl⟩ := h
  exact ⟨l', rfl, (scanValue_length l).1 l' hl'⟩

/-- The shapes of a window in the header. -/
theorem header_cases (w : List Byte) :
    w.length < 2 ∨ (∃ l, w = CR :: LF :: l) ∨ Begun w := by
  rcases w with _ | ⟨c, _ | ⟨lf, l⟩⟩
  · exact .inl (by simp)
  · exact .inl (by simp)
  · by_cases h : c = CR ∧ lf = LF
    · obtain ⟨rfl, rfl⟩ := h
      exact .inr (.inl ⟨l, rfl⟩)
    · exact .inr (.inr ⟨c, lf, l, rfl, h⟩)

theorem headerVerdict_short (h : w.length < 2) : headerVerdict w = .more w := by
  rcases w with _ | ⟨c, _ | ⟨lf, l⟩⟩
  · rfl
  · rfl
  · simp only [List.length_cons] at h
    omega

theorem headerVerdict_end (l : List Byte) :
    headerVerdict (CR :: LF :: l) = .stop (.final (some .complete)) l := rfl

/-- What `parse_header` meets: too little, the end of the header, or a line with a name. -/
theorem header_shape (w : List Byte) :
    headerVerdict w = .more w ∨ (∃ l, w = CR :: LF :: l) ∨
      ∃ name l, (∀ c ∈ name, c ≠ COLON) ∧ w = name ++ COLON :: l ∧ Begun w := by
  rcases header_cases w with hw | hend | hw
  · exact .inl (headerVerdict_short hw)
  · exact .inr (.inl hend)
  · rcases colon_split w with hc | ⟨name, l, hc, rfl⟩
    · exact .inl (headerVerdict_noColon hc hw)
    · exact .inr (.inr ⟨name, l, hc, rfl, hw⟩)

theorem headerVerdict_field_append {name : List Byte} (h : ∀ c ∈ name, c ≠ COLON)
    (hw : Begun (name ++ COLON :: l)) (e : List Byte) :
    headerVerdict (name ++ COLON :: l ++ e) = fieldVerdict name (scanValue (COLON :: l ++ e)) := by
  have hwe : Begun (name ++ COLON :: (l ++ e)) := by simpa using hw.append e
  rw [List.append_assoc, List.cons_append]
  exact headerVerdict_field h hwe

theorem headerVerdict_more (h : headerVerdict w = .more w') :
    (∀ e, headerVerdict (w' ++ e) = headerVerdict (w ++ e)) ∧ w'.length = w.length := by
  rcases header_shape w with hw | ⟨l, rfl⟩ | ⟨name, l, hc, rfl, hw⟩
  · obtain rfl : w = w' := by simpa [hw] using h
    exact ⟨fun _ => rfl, rfl⟩
  · simp [headerVerdict_end] at h
  · rw [headerVerdict_field hc hw] at h
    cases hv : scanValue (COLON :: l) with
    | more v =>
      obtain rfl : name ++ v = w' := by simpa [hv, fieldVerdict] using h
      obtain ⟨l', rfl, hlen⟩ := scanValue_colon_more hv
      refine ⟨fun e => ?_, by simp [hlen]⟩
      rw [headerVerdict_field_append hc (hw.rewrite hc hlen), headerVerdict_field_append hc hw,
        scanValue_more hv]
    | bare v => simp [hv, fieldVerdict] at h
    | found v rest =>
      rw [hv, fieldVerdict] at h
      split at h <;> simp at h

theorem headerVerdict_append {r : Report} {rest : List Byte}
    (h : headerVerdict w = .stop r rest) (e : List Byte) :
    headerVerdict (w ++ e) = .stop r (rest ++ e) := by
  rcases header_shape w with hw | ⟨l, rfl⟩ | ⟨name, l, hc, rfl, hw⟩
  · simp [hw] at h
  · obtain ⟨rfl, rfl⟩ := by simpa [headerVerdict_end] using h
    rfl
  · rw [headerVerdict_field_append hc hw]
    rw [headerVerdict_field hc hw] at h
    cases hv : scanValue (COLON :: l) with
    | more v => simp [hv, fieldVerdict] at h
    | bare v =>
      obtain ⟨rfl, rfl⟩ := by simpa [hv, fieldVerdict] using h
      rw [scanValue_append_bare hv, fieldVerdict, List.append_assoc]
    | found v rest' =>
      rw [hv, fieldVerdict] at h
      rw [scanValue_append_found hv, fieldVerdict]
      split at h
      · obtain ⟨rfl, rfl⟩ := by simpa using h
        rw [if_pos ‹_›]
      · simp at h

theorem headerVerdict_emit_append {r : Report} {q : HTTPParserState} {rest : List Byte}
    (h : headerVerdict w = .emit r q rest) :
    (∀ e, headerVerdict (w ++ e) = .emit r q (rest ++ e)) ∧ rest.length < w.length ∧ q = .header := by
  rcases header_shape w with hw | ⟨l, rfl⟩ | ⟨name, l, hc, rfl, hw⟩
  · simp [hw] at h
  · simp [headerVerdict_end] at h
  · rw [headerVerdict_field hc hw] at h
    cases hv : scanValue (COLON :: l) with
    | more v => simp [hv, fieldVerdict] at h
    | bare v => simp [hv, fieldVerdict] at h
    | found v rest' =>
      have hlen := (scanValue_length _).2 v rest' hv
      rw [hv, fieldVerdict] at h
      split at h
      · simp at h
      · obtain ⟨rfl, rfl, rfl⟩ := by simpa using h
        refine ⟨fun e => ?_, ?_, rfl⟩
        · rw [headerVerdict_field_append hc hw, scanValue_append_found hv, fieldVerdict,
            if_neg ‹_›]
        · simp only [List.length_append]
          omega

/-- A start line that needs more is not touched. -/
theorem startLineVerdict_more (h : startLineVerdict w = .more w') : w' = w := by
  rcases startLineVerdict_cases w with hw | ⟨_, _, _, _, _, _, _, -, hw⟩
  · simpa [hw, eq_comm] using h
  · rw [hw] at h
    split at h
    · simp at h
    · split at h <;> simp at h

theorem verdict_stable : Stable verdict where
  more {q w w'} h e := by
    cases q with
    | startLine => rw [startLineVerdict_more h]
    | header => exact (headerVerdict_more h).1 e
    | _ => simp [verdict] at h
  emit {q w r q' rest} h e := by
    cases q with
    | startLine =>
      rcases startLineVerdict_cases w with hw | ⟨_, _, _, _, _, _, _, hs, hw⟩
      · simp [verdict, hw] at h
      · rw [verdict, hw] at h
        rw [verdict, startLineVerdict_append hs]
        split at h
        · simp at h
        · split at h
          · simp at h
          · obtain ⟨rfl, rfl, rfl⟩ := by simpa using h
            rw [if_neg ‹_›, if_neg ‹_›]
    | header => exact (headerVerdict_emit_append h).1 e
    | _ => simp [verdict] at h
  stop {q w r rest} h e := by
    cases q with
    | startLine =>
      rcases startLineVerdict_cases w with hw | ⟨_, _, _, _, _, _, _, hs, hw⟩
      · simp [verdict, hw] at h
      · rw [verdict, hw] at h
        rw [verdict, startLineVerdict_append hs]
        split at h
        · obtain ⟨rfl, rfl⟩ := by simpa using h
          rw [if_pos ‹_›]
        · split at h
          · obtain ⟨rfl, rfl⟩ := by simpa using h
            rw [if_neg ‹_›, if_pos ‹_›]
          · simp at h
    | header => exact headerVerdict_append h e
    | _ =>
      obtain ⟨rfl, rfl⟩ := by simpa [verdict] using h
      rfl

/-- Every result takes something from the window. -/
theorem verdict_progress {q q' : HTTPParserState} {r : Report}
    (h : verdict q w = .emit r q' rest) : rest.length < w.length ∧ Parsing q' := by
  cases q with
  | startLine =>
    rcases startLineVerdict_cases w with hw | ⟨first, second, third, c, lf, end_, l, hs, hw⟩
    · simp [verdict, hw] at h
    · have hlen : l.length + 3 ≤ w.length := by
        have hl : (splitStartLine w).2.2.2.length ≤ w.length := by
          simp only [splitStartLine]
          exact ((List.dropWhile_sublist _).trans ((List.dropWhile_sublist _).trans
            ((List.dropWhile_sublist _).trans ((List.dropWhile_sublist _).trans
              (List.dropWhile_sublist _))))).length_le
        simp only [hs, List.length_cons] at hl
        omega
      rw [verdict, hw] at h
      split at h
      · simp at h
      · split at h
        · simp at h
        · obtain ⟨-, rfl, rfl⟩ := by simpa using h
          exact ⟨by simp only [List.length_cons]; omega, .inr rfl⟩
  | header =>
    obtain ⟨-, hlen, rfl⟩ := headerVerdict_emit_append h
    exact ⟨hlen, .inr rfl⟩
  | _ => simp [verdict] at h

theorem verdict_more_length {q : HTTPParserState} (h : verdict q w = .more w') :
    w'.length = w.length := by
  cases q with
  | startLine => rw [startLineVerdict_more h]
  | header => exact (headerVerdict_more h).2
  | _ => simp [verdict] at h

/-! ### `parse` does what the verdict says -/

/-- The window is replaced by what it was rewritten to. -/
def rewrite (p : HTTPParser) (w : List Byte) : HTTPParser :=
  { p with buffer := { p.buffer with window := w } }

/-- The parser `p'` has given the result `r` and left `rest` in the window. -/
structure Gives (p p' : HTTPParser) (r : Report) (rest : List Byte) : Prop where
  report : p'.report = r
  window : p'.buffer.window = rest
  capacity : p'.buffer.capacity = p.buffer.capacity

theorem parseStartLine_more (h : startLineVerdict p.buffer.window = .more w) :
    p.parseStartLine = (p.rewrite w).readMore := by
  obtain rfl := startLineVerdict_more h
  rcases hs : splitStartLine p.buffer.window with ⟨first, second, third, l⟩
  rcases l with _ | ⟨c, _ | ⟨lf, _ | ⟨end_, l⟩⟩⟩ <;> simp only [startLineVerdict, hs] at h <;>
    simp only [parseStartLine, hs]
  · rfl
  · rfl
  · rfl
  · split at h
    · simp at h
    · split at h <;> simp at h

theorem parseStartLine_stop {r : Report} (h : startLineVerdict p.buffer.window = .stop r rest) :
    ∃ p', p.parseStartLine = (p', .ret) ∧ Gives p p' r rest := by
  rcases startLineVerdict_cases p.buffer.window with hw | ⟨first, second, third, c, lf, end_, l, hs, hw⟩
  · simp [hw] at h
  · rw [hw] at h
    simp only [parseStartLine, hs]
    split at h
    · obtain ⟨rfl, rfl⟩ := by simpa using h
      rw [if_pos ‹_›]
      exact ⟨_, rfl, rfl, rfl, rfl⟩
    · split at h
      · obtain ⟨rfl, rfl⟩ := by simpa using h
        rw [if_neg ‹_›, if_pos ‹_›]
        exact ⟨_, rfl, rfl, rfl, rfl⟩
      · simp at h

theorem splitStartLine_suffix {first second third l : List Byte}
    (h : splitStartLine w = (first, second, third, l)) : l <:+ w := by
  simp only [splitStartLine, Prod.mk.injEq] at h
  rw [← h.2.2.2]
  exact (List.dropWhile_suffix _).trans ((List.dropWhile_suffix _).trans ((List.dropWhile_suffix _).trans
    ((List.dropWhile_suffix _).trans (List.dropWhile_suffix _))))

theorem parseStartLine_emit {r : Report} {q : HTTPParserState}
    (h : startLineVerdict p.buffer.window = .emit r q rest) :
    ∃ p', p.parseStartLine = (p', .pause) ∧ Gives p p' r rest ∧ p'.state = q := by
  rcases startLineVerdict_cases p.buffer.window with hw | ⟨first, second, third, c, lf, end_, l, hs, hw⟩
  · simp [hw] at h
  · rw [hw] at h
    simp only [parseStartLine, hs]
    split at h
    · simp at h
    · split at h
      · simp at h
      · obtain ⟨rfl, rfl, rfl⟩ := by simpa using h
        rw [if_neg ‹_›, if_neg ‹_›]
        obtain ⟨pre, hpre⟩ : end_ :: l <:+ p.buffer.window :=
          (List.suffix_cons_iff.mpr (.inr (List.suffix_cons _ _))).trans (splitStartLine_suffix hs)
        rw [BufferView.consume_to hpre.symm]
        exact ⟨_, rfl, ⟨rfl, rfl, rfl⟩, rfl⟩

theorem parseHeader_short (h : p.buffer.window.length < 2) : p.parseHeader = p.readMore := by
  unfold parseHeader
  split
  · rename_i hw
    rw [hw] at h
    simp only [List.length_cons] at h
    omega
  · rfl

theorem parseHeader_end {l : List Byte} (h : p.buffer.window = CR :: LF :: l) :
    ∃ p', p.parseHeader = (p', .ret) ∧ Gives p p' (.final (some .complete)) l := by
  have hconsume : p.buffer.consume 2 =
      some { p.buffer with front := p.buffer.front ++ [CR, LF], window := l } := by
    simp [BufferView.consume, BufferView.size, h]
  unfold parseHeader
  simp only [h, and_self, if_true, completeHeader, hconsume, BufferView.cut_offset]
  exact ⟨_, rfl, rfl, rfl, rfl⟩

theorem parseHeader_begun (h : Begun p.buffer.window) :
    p.parseHeader =
      match scanValue (p.buffer.window.dropWhile (· != COLON)) with
      | .more v => (p.rewrite (p.buffer.window.takeWhile (· != COLON) ++ v)).readMore
      | .bare v => ({ p.rewrite (p.buffer.window.takeWhile (· != COLON) ++ v) with
          result := some .badRequest }, .ret)
      | .found v rest => (p.rewrite (p.buffer.window.takeWhile (· != COLON) ++
          (v ++ CR :: LF :: rest))).takeField (p.buffer.window.takeWhile (· != COLON)) v rest := by
  obtain ⟨c, lf, l, hw, hne⟩ := h
  unfold parseHeader
  simp only [hw, if_neg hne]
  rfl

/-- The rewritten line is consumed, and the field is judged by its name. -/
theorem takeField_eq {name v rest : List Byte}
    (hw : p.buffer.window = name ++ (v ++ CR :: LF :: rest)) :
    ∃ p', p.takeField name v rest = (p', if name.getLast?.any isspace then .ret else .pause) ∧
      Gives p p' (if name.getLast?.any isspace then .final (some .badRequest)
        else .header name (trim v)) rest ∧ p'.state = p.state := by
  have hw' : p.buffer.window = (name ++ (v ++ [CR, LF])) ++ rest := by simp [hw]
  unfold takeField
  rw [BufferView.consume_to hw']
  dsimp only
  split
  · exact ⟨_, rfl, ⟨rfl, rfl, rfl⟩, rfl⟩
  · exact ⟨_, rfl, ⟨rfl, rfl, rfl⟩, rfl⟩

theorem parseHeader_more (h : headerVerdict p.buffer.window = .more w) :
    p.parseHeader = (p.rewrite w).readMore := by
  rcases header_cases p.buffer.window with hw | ⟨l, hw⟩ | hw
  · obtain rfl : p.buffer.window = w := by simpa [headerVerdict_short hw] using h
    exact parseHeader_short hw
  · simp [hw, headerVerdict_end] at h
  · rw [headerVerdict_begun hw] at h
    rw [parseHeader_begun hw]
    cases hv : scanValue (p.buffer.window.dropWhile (· != COLON)) with
    | more v =>
      obtain rfl : _ = w := by simpa [hv, fieldVerdict] using h
      rfl
    | bare v => simp [hv, fieldVerdict] at h
    | found v rest =>
      rw [hv, fieldVerdict] at h
      split at h <;> simp at h

theorem parseHeader_stop {r : Report} (h : headerVerdict p.buffer.window = .stop r rest) :
    ∃ p', p.parseHeader = (p', .ret) ∧ Gives p p' r rest := by
  rcases header_cases p.buffer.window with hw | ⟨l, hw⟩ | hw
  · simp [headerVerdict_short hw] at h
  · obtain ⟨rfl, rfl⟩ := by simpa [hw, headerVerdict_end] using h
    exact parseHeader_end hw
  · rw [headerVerdict_begun hw] at h
    rw [parseHeader_begun hw]
    cases hv : scanValue (p.buffer.window.dropWhile (· != COLON)) with
    | more v => simp [hv, fieldVerdict] at h
    | bare v =>
      obtain ⟨rfl, rfl⟩ := by simpa [hv, fieldVerdict] using h
      exact ⟨_, rfl, rfl, rfl, rfl⟩
    | found v rest' =>
      rw [hv, fieldVerdict] at h
      split at h
      · obtain ⟨rfl, rfl⟩ := by simpa using h
        obtain ⟨p', heq, hgives, -⟩ := @takeField_eq (p.rewrite _) _ v rest' rfl
        rw [if_pos ‹_›] at hgives heq
        exact ⟨p', heq, hgives.report, hgives.window, hgives.capacity⟩
      · simp at h

theorem parseHeader_emit {r : Report} {q : HTTPParserState} (hstate : p.state = .header)
    (h : headerVerdict p.buffer.window = .emit r q rest) :
    ∃ p', p.parseHeader = (p', .pause) ∧ Gives p p' r rest ∧ p'.state = q := by
  rcases header_cases p.buffer.window with hw | ⟨l, hw⟩ | hw
  · simp [headerVerdict_short hw] at h
  · simp [hw, headerVerdict_end] at h
  · rw [headerVerdict_begun hw] at h
    rw [parseHeader_begun hw]
    cases hv : scanValue (p.buffer.window.dropWhile (· != COLON)) with
    | more v => simp [hv, fieldVerdict] at h
    | bare v => simp [hv, fieldVerdict] at h
    | found v rest' =>
      rw [hv, fieldVerdict] at h
      split at h
      · simp at h
      · obtain ⟨rfl, rfl, rfl⟩ := by simpa using h
        obtain ⟨p', heq, hgives, hq⟩ := @takeField_eq (p.rewrite _) _ v rest' rfl
        rw [if_neg ‹_›] at hgives heq
        exact ⟨p', heq, ⟨hgives.report, hgives.window, hgives.capacity⟩, hq.trans hstate⟩

theorem parse_more (hp : Parsing p.state) (h : verdict p.state p.buffer.window = .more w) :
    p.parse = (p.rewrite w).readMore := by
  rcases hp with hq | hq <;> rw [hq] at h <;> simp only [parse, hq]
  · exact parseStartLine_more h
  · exact parseHeader_more h

theorem parse_stop {r : Report} (hp : Parsing p.state)
    (h : verdict p.state p.buffer.window = .stop r rest) :
    ∃ p', p.parse = (p', .ret) ∧ Gives p p' r rest := by
  rcases hp with hq | hq <;> rw [hq] at h <;> simp only [parse, hq]
  · exact parseStartLine_stop h
  · exact parseHeader_stop h

theorem parse_emit {r : Report} {q : HTTPParserState} (hp : Parsing p.state)
    (h : verdict p.state p.buffer.window = .emit r q rest) :
    ∃ p', p.parse = (p', .pause) ∧ Gives p p' r rest ∧ p'.state = q := by
  rcases hp with hq | hq <;> rw [hq] at h <;> simp only [parse, hq]
  · exact parseStartLine_emit h
  · exact parseHeader_emit hq h

/-! ### The last report -/

theorem verdict_stop {q : HTTPParserState} {r : Report} (hq : Parsing q)
    (h : verdict q w = .stop r rest) :
    r = .final (some .badRequest) ∨ r = .final (some .complete) := by
  rcases hq with rfl | rfl
  · rcases startLineVerdict_cases w with hw | ⟨_, _, _, _, _, _, _, -, hw⟩
    · simp [verdict, hw] at h
    · rw [verdict, hw] at h
      split at h
      · exact .inl (by simpa [eq_comm] using (Verdict.stop.inj h).1)
      · split at h
        · exact .inl (by simpa [eq_comm] using (Verdict.stop.inj h).1)
        · cases h
  · rcases header_cases w with hw | ⟨l, rfl⟩ | hw
    · simp [verdict, headerVerdict_short hw] at h
    · exact .inr (Verdict.stop.inj h).1.symm
    · rw [verdict, headerVerdict_begun hw] at h
      cases hv : scanValue (w.dropWhile (· != COLON)) with
      | more v => simp [hv, fieldVerdict] at h
      | bare v =>
        rw [hv, fieldVerdict] at h
        exact .inl (Verdict.stop.inj h).1.symm
      | found v rest' =>
        rw [hv, fieldVerdict] at h
        split at h
        · exact .inl (Verdict.stop.inj h).1.symm
        · cases h

/-- What is emitted is an event. -/
theorem verdict_emit {q q' : HTTPParserState} {r : Report}
    (h : verdict q w = .emit r q' rest) : ∀ st, r ≠ .final st := by
  cases q with
  | startLine =>
    rcases startLineVerdict_cases w with hw | ⟨_, _, _, _, _, _, _, -, hw⟩
    · simp [verdict, hw] at h
    · rw [verdict, hw] at h
      split at h
      · cases h
      · split at h
        · cases h
        · cases h
          simp
  | header =>
    rcases header_cases w with hw | ⟨l, rfl⟩ | hw
    · simp [verdict, headerVerdict_short hw] at h
    · cases h
    · rw [verdict, headerVerdict_begun hw] at h
      cases hv : scanValue (w.dropWhile (· != COLON)) with
      | more v => simp [hv, fieldVerdict] at h
      | bare v => simp [hv, fieldVerdict] at h
      | found v rest' =>
        rw [hv, fieldVerdict] at h
        split at h
        · cases h
        · cases h
          simp
  | _ => simp [verdict] at h

theorem outputs_emit {q : HTTPParserState} {w : List Byte} {rs : List Report}
    {e : Option (Report × List Byte)} (h : Outputs verdict q w rs e) : ∀ r ∈ rs, ∀ st, r ≠ .final st := by
  induction h with
  | more | stop => simp
  | emit hp _ ih =>
    intro r hr
    rcases List.mem_cons.mp hr with rfl | hr
    · exact verdict_emit hp
    · exact ih r hr

theorem outputs_stop {q : HTTPParserState} {w rest : List Byte} {rs : List Report} {r : Report}
    (h : Outputs verdict q w rs (some (r, rest))) (hq : Parsing q) :
    r = .final (some .badRequest) ∨ r = .final (some .complete) := by
  generalize he : some (r, rest) = e at h
  induction h with
  | more => cases he
  | stop hp =>
    obtain ⟨rfl, rfl⟩ := Prod.mk.inj (Option.some.inj he)
    exact verdict_stop hq hp
  | emit hp _ ih => exact ih (verdict_progress hp).2 he

end HTTPParser

end Jinx.Http
