import Jinx.Http.Exchange
import Jinx.Http.ParserProgress

/-! Who awaits a parser: a page of a `WebApp`, or an `HTTPClient`.

    The awaiter gets control when the parser has paused or returned, looks at the report, and awaits the
    parser again or does something else. The bytes arrive in any pieces meanwhile (`Exchange`), so what it
    has seen is the begin of the reports, and a last report ends what there is to see. -/

namespace Jinx.Http
open Jinx Posix Incremental

/-- `waits`: the parser is awaited; `react`: the awaiter gets control with a report; `act`: what it does
    by itself. -/
structure Awaiter (ρ α : Type*) where
  waits : ρ → Bool
  react : ρ → Report → ρ
  act : ρ → α → Option ρ

/-- The awaiter `awaiter` at the receiving end of an exchange; it has seen the first `seen` reports. -/
structure Reading (ρ : Type*) where
  exchange : Exchange
  awaiter : ρ
  seen : Nat := 0

namespace Reading

variable {ρ α : Type*} (A : Awaiter ρ α)

inductive Label (α : Type*) where
  | wire (l : Exchange.ExchangeLabel)
  | await
  | report
  | act (a : α)

/-- Only the awaiter awaits the parser. -/
def awaits : Exchange.ExchangeLabel → Bool
  | .recv .await => true
  | _ => false

def reports (x : Reading ρ) : List Report := x.exchange.session.reports

/-- The reports that the awaiter has seen. -/
def taken (x : Reading ρ) : List Report := x.reports.take x.seen

def step (x : Reading ρ) : Label α → Option (Reading ρ)
  | .wire l => if awaits l then none else (x.exchange.step l).map fun y => { x with exchange := y }
  | .await =>
    if A.waits x.awaiter ∧ x.seen = x.reports.length then
      (x.exchange.step (.recv .await)).map fun y => { x with exchange := y }
    else none
  | .report =>
    if A.waits x.awaiter then
      x.reports[x.seen]?.map fun r => { x with awaiter := A.react x.awaiter r, seen := x.seen + 1 }
    else none
  | .act a => (A.act x.awaiter a).map fun s => { x with awaiter := s }

abbrev exec : Reading ρ → List (Label α) → Option (Reading ρ) := Runs.exec (step A)

/-- The view is written to the connection, and the awaiter reads from it with `M` bytes of memory. -/
def init (ioHandle : Int) (v : RawView) (M : Nat) (s : ρ) : Reading ρ :=
  { exchange := .init ioHandle v M, awaiter := s }

end Reading

/-! ### Reports are only added -/

theorem Session.step_reports {s t : Session} {l : Session.Label} (h : Session.step s l = some t) :
    s.reports <+: t.reports := by
  have hsettle (u : Session) (r : HTTPParser × Async) : u.reports <+: (u.settle r).reports := by
    obtain ⟨p, a⟩ := r
    cases a with
    | pause | ret => exact List.prefix_append ..
    | _ => exact List.prefix_rfl
  cases l with
  | await =>
    obtain ⟨-, hs⟩ := Option.ite_none_right_eq_some.mp h
    obtain rfl := Option.some.inj hs
    unfold Session.await
    split
    · exact hsettle s _
    · exact hsettle s _
  | read k =>
    obtain ⟨-, hs⟩ := Option.ite_none_right_eq_some.mp h
    obtain ⟨buffer, -, rfl⟩ := Option.map_eq_some_iff.mp hs
    exact hsettle { s with stream := s.stream.drop k } _
  | endOfStream =>
    obtain ⟨-, hs⟩ := Option.ite_none_right_eq_some.mp h
    obtain rfl := Option.some.inj hs
    exact hsettle s _

theorem Exchange.step_reports {x y : Exchange} {l : ExchangeLabel} (h : x.step l = some y) :
    x.session.reports <+: y.session.reports := by
  cases l with
  | send l =>
    obtain ⟨-, hmap⟩ := Option.ite_none_right_eq_some.mp h
    obtain ⟨s, -, rfl⟩ := Option.map_eq_some_iff.mp hmap
    exact List.prefix_rfl
  | recv l =>
    obtain ⟨-, hmap⟩ := Option.ite_none_right_eq_some.mp h
    obtain ⟨s, hs, rfl⟩ := Option.map_eq_some_iff.mp hmap
    exact Session.step_reports hs
  | shutdown =>
    obtain ⟨-, hs⟩ := Option.ite_none_right_eq_some.mp h
    obtain rfl := Option.some.inj hs
    exact List.prefix_rfl

namespace Reading

variable {ρ α σ : Type*} {A : Awaiter ρ α} {x y : Reading ρ}

/-- What a step does: the exchange goes on, or the awaiter sees the next report, or it acts. -/
inductive Outcome (A : Awaiter ρ α) (x : Reading ρ) : Reading ρ → Prop
  | exchange {l z} (h : x.exchange.step l = some z) : Outcome A x { x with exchange := z }
  | report {r} (hwaits : A.waits x.awaiter = true) (h : x.reports[x.seen]? = some r) :
    Outcome A x { x with awaiter := A.react x.awaiter r, seen := x.seen + 1 }
  | act {a s} (h : A.act x.awaiter a = some s) : Outcome A x { x with awaiter := s }

theorem step_outcome {l : Label α} (h : step A x l = some y) : Outcome A x y := by
  cases l with
  | wire l =>
    obtain ⟨-, hmap⟩ := Option.ite_none_left_eq_some.mp h
    obtain ⟨z, hz, rfl⟩ := Option.map_eq_some_iff.mp hmap
    exact .exchange hz
  | await =>
    obtain ⟨-, hmap⟩ := Option.ite_none_right_eq_some.mp h
    obtain ⟨z, hz, rfl⟩ := Option.map_eq_some_iff.mp hmap
    exact .exchange hz
  | report =>
    obtain ⟨hwaits, hmap⟩ := Option.ite_none_right_eq_some.mp h
    obtain ⟨r, hr, rfl⟩ := Option.map_eq_some_iff.mp hmap
    exact .report hwaits hr
  | act a =>
    obtain ⟨s, hs, rfl⟩ := Option.map_eq_some_iff.mp h
    exact .act hs

/-- What every step of the exchange keeps is kept with an awaiter. -/
theorem exec_exchange {I : Exchange → Prop} (hI : ∀ x l y, I x → x.step l = some y → I y)
    {as : List (Label α)} (hrun : exec A x as = some y) (h : I x.exchange) : I y.exchange := by
  refine Runs.exec_invariant (I := fun x : Reading ρ => I x.exchange) (fun x l y hx _ hstep => ?_)
    as x y hrun (Runs.meets_true as x) h
  cases step_outcome hstep with
  | exchange hz => exact hI _ _ _ hx hz
  | report | act => exact hx

/-- The awaiter has seen no more than there is, and while `P` holds of it, what `c` shows of it is that of
    the reports. -/
structure Tracks (P : ρ → Prop) (c : ρ → σ) (f : σ → Report → σ) (c₀ : σ) (x : Reading ρ) : Prop where
  seen : x.seen ≤ x.reports.length
  shows : P x.awaiter → c x.awaiter = x.taken.foldl f c₀

/-- An awaiter that goes on with each report as `f` says, and leaves `c` alone otherwise. -/
theorem Tracks.run {P : ρ → Prop} {c : ρ → σ} {f : σ → Report → σ} {c₀ : σ}
    (hreact : ∀ s r, A.waits s = true → P (A.react s r) → P s ∧ c (A.react s r) = f (c s) r)
    (hact : ∀ s a t, A.act s a = some t → P t → P s ∧ c t = c s) {as : List (Label α)}
    (hrun : exec A x as = some y) (h : Tracks P c f c₀ x) : Tracks P c f c₀ y := by
  refine Runs.exec_invariant (fun x l y hx _ hstep => ?_) as x y hrun (Runs.meets_true as x) h
  cases step_outcome hstep with
  | @exchange l z hz =>
    obtain ⟨new, hnew⟩ := Exchange.step_reports hz
    refine ⟨?_, fun hP => (hx.shows hP).trans ?_⟩
    · refine hx.seen.trans ?_
      rw [reports, reports, ← hnew, List.length_append]
      exact Nat.le_add_right ..
    · congr 1
      show x.reports.take x.seen = z.session.reports.take x.seen
      rw [← hnew]
      exact (List.take_append_of_le_length hx.seen).symm
  | report hwaits hr =>
    obtain ⟨hlt, hget⟩ := List.getElem?_eq_some_iff.mp hr
    refine ⟨hlt, fun hP => ?_⟩
    obtain ⟨hbefore, heq⟩ := hreact _ _ hwaits hP
    refine heq.trans ?_
    rw [hx.shows hbefore]
    show f (List.foldl f c₀ (x.reports.take x.seen)) _ = List.foldl f c₀ (x.reports.take (x.seen + 1))
    rw [List.take_add_one, hr, List.foldl_append]
    rfl
  | act hs =>
    refine ⟨hx.seen, fun hP => ?_⟩
    obtain ⟨hbefore, heq⟩ := hact _ _ _ hs hP
    exact heq.trans (hx.shows hbefore)

theorem tracks_init (P : ρ → Prop) (c : ρ → σ) (f : σ → Report → σ) (ioHandle : Int) (v : RawView)
    (M : Nat) (s : ρ) : Tracks P c f (c s) (init ioHandle v M s) :=
  ⟨Nat.zero_le _, fun _ => rfl⟩

end Reading

/-! ### The last report -/

namespace Exchange

variable {x : Exchange} {text : List Byte} {M n : Nat} {rs : List Report}
  {e : Option (Report × List Byte)} {st : Option HTTPParserState}

theorem Inv.reports_cases (h : Inv text M rs e x) :
    x.session.reports <+: rs ∨ x.session.reports = rs ++ [Session.lastReport text M e] ∨
      x.Cut text rs := by
  obtain hway | ⟨-, hcut⟩ := h.session
  · have hwhole : ∀ {q}, x.session.phase = q → (x.whole text).phase = q := id
    cases hcase : x.session.phase <;> simp only [Session.OnTheWay, hwhole hcase] at hway
    case idle | reading =>
      obtain ⟨rs', hrs, -⟩ := hway
      exact .inl ⟨rs', hrs.symm⟩
    case done => exact .inr (.inl (congrArg Prod.fst hway))
  · exact .inr (.inr hcut)

/-- Who has seen a last report has seen them all. -/
theorem Inv.seen_final (h : Inv text M rs e x) (hrs : ∀ r ∈ rs, ∀ st, r ≠ .final st)
    (hmem : .final st ∈ x.session.reports.take n) :
    x.session.reports.take n = x.session.reports ∧
      (x.session.reports = rs ++ [Session.lastReport text M e] ∨ x.Cut text rs) := by
  have hnot {p : List Report} (hp : p <+: rs) : .final st ∉ p := fun hin => hrs _ (hp.subset hin) st rfl
  have hall {p : List Report} {r : Report} (hp : p <+: rs) (heq : x.session.reports = p ++ [r]) :
      x.session.reports.take n = x.session.reports := by
    refine List.take_of_length_le ?_
    by_contra hlt
    rw [heq, List.length_append, List.length_singleton, Nat.not_le, Nat.lt_succ_iff] at hlt
    rw [heq, List.take_append_of_le_length hlt] at hmem
    exact hnot hp (List.mem_of_mem_take hmem)
  obtain hpre | hlast | hcut := h.reports_cases
  · exact (hnot hpre (List.mem_of_mem_take hmem)).elim
  · exact ⟨hall List.prefix_rfl hlast, .inl hlast⟩
  · obtain ⟨p, hp, heq⟩ := hcut.2.2
    exact ⟨hall hp heq, .inr hcut⟩

/-- Who has seen none of them has seen what the parser has reported on the way. -/
theorem Inv.seen_prefix (h : Inv text M rs e x) (hlast : ∃ st, Session.lastReport text M e = .final st)
    (hmem : ∀ st, .final st ∉ x.session.reports.take n) : x.session.reports.take n <+: rs := by
  have hcut {p : List Report} {st} (heq : x.session.reports = p ++ [.final st]) :
      x.session.reports.take n <+: p := by
    have hpre : x.session.reports.take n <+: p ++ [.final st] := heq ▸ List.take_prefix ..
    rcases List.prefix_concat_iff.mp hpre with hwhole | hp
    · exact (hmem st (by rw [hwhole]; simp)).elim
    · exact hp
  obtain hpre | hwhole | ⟨-, -, p, hp, heq⟩ := h.reports_cases
  · exact (List.take_prefix ..).trans hpre
  · obtain ⟨st, hst⟩ := hlast
    exact hcut (hst ▸ hwhole)
  · exact (hcut heq).trans hp

end Exchange

end Jinx.Http
