import Jinx.ControlState
import Jinx.Lib.DoWhile

/-! System calls that a signal interrupts: the wrappers of `EventEngineLibevent` and `IOHandle::reset`.

    What the kernel answers is a sequence of results for each kind of call: interruptions, one result
    that is none, and what further calls would give. -/

namespace Jinx.Posix
open Jinx DoWhile

abbrev EINTR : Nat := 4
abbrev EAGAIN : Nat := 11
abbrev EWOULDBLOCK : Nat := 11
abbrev EINPROGRESS : Nat := 115

/-- `posix::category_posix`. -/
abbrev categoryPosix : Category := .other 0

/-- `posix::category_again`. -/
abbrev categoryAgain : Category := .other 1

/-- What a system call gives: a value, or `-1` and `errno`. -/
inductive SysResult where
  | success (value : Nat)
  | failure (errno : Nat)
  deriving DecidableEq, Repr

/-- The value that the call returns. -/
def SysResult.res : SysResult → Int
  | success value => value
  | failure _ => -1

def SysResult.failed : SysResult → Bool
  | success _ => false
  | failure _ => true

/-- The results of one call after the other: `EINTR` a number of times, then another one. -/
structure Outcomes where
  interrupts : Nat
  final : SysResult
  later : Nat → SysResult
  final_ne : final ≠ .failure EINTR

/-- The result of a call when `i` calls were made before it. -/
def Outcomes.nth (o : Outcomes) (i : Nat) : SysResult :=
  if i < o.interrupts then .failure EINTR
  else if i = o.interrupts then o.final
  else o.later i

inductive SysCall where
  | connect | accept | read | write | recv | send | recvfrom | sendto | readv | writev | recvmsg
  | sendmsg | shutdown | close
  deriving DecidableEq, Repr

/-- The kernel. -/
abbrev System := SysCall → Outcomes

/-- `IOResult`; the union of the integers is one field. -/
structure IOResult where
  error : Error := {}
  int : Int := 0
  deriving DecidableEq, Repr

/-- `IOResult::set_result`. -/
def IOResult.setResult (r : IOResult) (res : Int) : IOResult := { r with int := res }

/-- The variables of a retry loop, and the number of calls made. -/
structure Retry where
  result : IOResult := {}
  err : Nat := 0
  calls : Nat := 0
  deriving DecidableEq, Repr

/-- The body of the loop of `convert_to_asyncio_error_code`: `res` is the argument, and `errno` is what
    the call that gave it has left there. -/
def convertBody (r : SysResult) (s : Retry) : Retry :=
  let result := s.result.setResult r.res
  match r with
  | .failure errno =>
    if errno = EAGAIN ∨ errno = EWOULDBLOCK then
      { s with result := { result with error := ⟨errno, categoryAgain⟩ }, err := errno }
    else { s with result := { result with error := ⟨errno, categoryPosix⟩ }, err := errno }
  | .success _ => { s with result }

/-- `while(err == EINTR)`. -/
def Retry.interrupted (s : Retry) : Bool := s.err == EINTR

/-- `convert_to_asyncio_error_code`: the call is the argument, so it is made once. -/
def convertToAsyncioErrorCode (r : SysResult) (fuel : Nat) : Option IOResult :=
  (doWhile (convertBody r) Retry.interrupted fuel { calls := 1 }).map Retry.result

variable (sys : System)

def accept := convertToAsyncioErrorCode ((sys .accept).nth 0)
def read := convertToAsyncioErrorCode ((sys .read).nth 0)
def write := convertToAsyncioErrorCode ((sys .write).nth 0)
def recv := convertToAsyncioErrorCode ((sys .recv).nth 0)
def send := convertToAsyncioErrorCode ((sys .send).nth 0)
def recvfrom := convertToAsyncioErrorCode ((sys .recvfrom).nth 0)
def sendto := convertToAsyncioErrorCode ((sys .sendto).nth 0)
def readv := convertToAsyncioErrorCode ((sys .readv).nth 0)
def writev := convertToAsyncioErrorCode ((sys .writev).nth 0)
def recvmsg := convertToAsyncioErrorCode ((sys .recvmsg).nth 0)
def sendmsg := convertToAsyncioErrorCode ((sys .sendmsg).nth 0)
def shutdown := convertToAsyncioErrorCode ((sys .shutdown).nth 0)

/-- The wrappers that are built on `convert_to_asyncio_error_code`, with the call of each. -/
def wrappers : List (SysCall × (System → Nat → Option IOResult)) :=
  [(.accept, accept), (.read, read), (.write, write), (.recv, recv), (.send, send),
    (.recvfrom, recvfrom), (.sendto, sendto), (.readv, readv), (.writev, writev),
    (.recvmsg, recvmsg), (.sendmsg, sendmsg), (.shutdown, shutdown)]

/-- The body of the loop of `EventEngineLibevent::connect`. -/
def connectBody (s : Retry) : Retry :=
  let r := (sys .connect).nth s.calls
  let result := s.result.setResult r.res
  match r with
  | .failure errno =>
    if errno = EINPROGRESS then
      { result := { result with error := ⟨errno, categoryAgain⟩ }, err := errno, calls := s.calls + 1 }
    else
      { result := { result with error := ⟨errno, categoryPosix⟩ }, err := errno, calls := s.calls + 1 }
  | .success _ => { s with result, calls := s.calls + 1 }

/-- `EventEngineLibevent::connect`. -/
def connect (fuel : Nat) : Option IOResult :=
  (doWhile (connectBody sys) Retry.interrupted fuel {}).map Retry.result

/-- The body of the loop of `IOHandle::reset`; nothing is kept of the result. -/
def closeBody (s : Retry) : Retry :=
  match (sys .close).nth s.calls with
  | .failure errno => { s with err := errno, calls := s.calls + 1 }
  | .success _ => { s with calls := s.calls + 1 }

/-- `InvalidNativeHandle`. -/
abbrev InvalidNativeHandle : Int := -1

/-- `IOHandle::reset`: the new handle, and the number of calls of `close`. -/
def IOHandle.reset (handle filedesc : Int) (fuel : Nat) : Option (Int × Nat) :=
  if handle ≠ InvalidNativeHandle then
    (doWhile (closeBody sys) Retry.interrupted fuel {}).map fun s => (filedesc, s.calls)
  else some (filedesc, 0)

/-- The value and the error classification of one result; `again` says which `errno` means that the
    call is to be made again later. -/
def classify (again : Nat → Prop) [DecidablePred again] : SysResult → IOResult
  | .success value => { int := value }
  | .failure errno =>
    { error := ⟨errno, if again errno then categoryAgain else categoryPosix⟩, int := -1 }

/-- The function terminates and returns `a`. -/
def Returns {α : Type} (f : Nat → Option α) (a : α) : Prop := ∃ fuel, f fuel = some a

theorem returns_map {σ α : Type} {body : σ → σ} {again : σ → Bool} {s : σ} {f : σ → α} {a : α} :
    Returns (fun fuel => (doWhile body again fuel s).map f) a ↔
      ∃ t, Ends body again s t ∧ f t = a := by
  constructor
  · rintro ⟨fuel, hfuel⟩
    obtain ⟨t, ht, rfl⟩ := Option.map_eq_some_iff.mp hfuel
    exact ⟨t, ⟨fuel, ht⟩, rfl⟩
  · rintro ⟨t, ⟨fuel, ht⟩, rfl⟩
    exact ⟨fuel, by simp [ht]⟩

/-! ### The wrappers: one call, converted in a loop -/

theorem convertBody_interrupted (r : SysResult) (s : Retry) :
    (convertBody r s).interrupted = true ↔
      r = .failure EINTR ∨ ((∃ v, r = .success v) ∧ s.interrupted = true) := by
  cases r with
  | success v => simp [convertBody, Retry.interrupted]
  | failure errno => simp only [convertBody]; split <;> simp [Retry.interrupted]

theorem convertBody_result (r : SysResult) {s : Retry} (hs : s.result.error = {}) :
    (convertBody r s).result = classify (fun e => e = EAGAIN ∨ e = EWOULDBLOCK) r := by
  cases r with
  | success v => simp [convertBody, classify, IOResult.setResult, SysResult.res, hs]
  | failure errno =>
    simp only [convertBody, classify, IOResult.setResult, SysResult.res]
    split <;> simp_all

theorem convert_diverges (a : IOResult) :
    ¬ Returns (convertToAsyncioErrorCode (.failure EINTR)) a := by
  unfold convertToAsyncioErrorCode
  rw [returns_map]
  rintro ⟨t, hends, -⟩
  refine not_ends (I := fun _ => True) (fun s _ => ⟨trivial, ?_⟩) trivial hends
  rw [convertBody_interrupted]
  exact .inl rfl

theorem convert_returns {r : SysResult} (hr : r ≠ .failure EINTR) :
    Returns (convertToAsyncioErrorCode r) (classify (fun e => e = EAGAIN ∨ e = EWOULDBLOCK) r) := by
  unfold convertToAsyncioErrorCode
  rw [returns_map]
  refine ⟨convertBody r { calls := 1 }, (ends_exit ?_).mpr rfl, convertBody_result r rfl⟩
  rw [← Bool.not_eq_true, convertBody_interrupted]
  simp [hr, Retry.interrupted]

/-- A wrapper gives the final result exactly when the first call does. -/
theorem convert_final_iff (o : Outcomes) :
    Returns (convertToAsyncioErrorCode (o.nth 0))
      (classify (fun e => e = EAGAIN ∨ e = EWOULDBLOCK) o.final) ↔ o.interrupts = 0 := by
  constructor
  · intro hret
    by_contra hn
    have hfirst : o.nth 0 = .failure EINTR := if_pos (Nat.pos_of_ne_zero hn)
    rw [hfirst] at hret
    exact convert_diverges _ hret
  · intro hn
    have hfirst : o.nth 0 = o.final := by simp [Outcomes.nth, hn]
    rw [hfirst]
    exact convert_returns o.final_ne

theorem wrappers_convert {w : SysCall × (System → Nat → Option IOResult)} (hw : w ∈ wrappers)
    (sys : System) : w.2 sys = convertToAsyncioErrorCode ((sys w.1).nth 0) := by
  simp only [wrappers, List.mem_cons, List.not_mem_nil, or_false] at hw
  rcases hw with rfl | rfl | rfl | rfl | rfl | rfl | rfl | rfl | rfl | rfl | rfl | rfl <;> rfl

/-! ### The loops that make the call again -/

section
variable {body : Retry → Retry} {o : Outcomes}
  (hcalls : ∀ s, (body s).calls = s.calls + 1)
  (herr : ∀ s errno, o.nth s.calls = .failure errno → (body s).err = errno)
  (hkeep : ∀ s v, o.nth s.calls = .success v → (body s).err = s.err)
include hcalls

theorem iterate_calls (k : Nat) (s : Retry) :
    (body^[k] s).calls = s.calls + k := by
  induction k with
  | zero => rfl
  | succ k ih => rw [Function.iterate_succ_apply', hcalls, ih, Nat.add_assoc]

theorem nth_iterate : o.nth (body^[o.interrupts] {}).calls = o.final := by
  simp [iterate_calls hcalls, Outcomes.nth]

include herr

theorem iterate_err {k : Nat} (hk : k < o.interrupts) :
    (body^[k + 1] {}).err = EINTR := by
  have hnth : o.nth (body^[k] {}).calls = .failure EINTR := by
    rw [iterate_calls hcalls, Outcomes.nth, if_pos (by simpa using hk)]
  rw [Function.iterate_succ_apply']
  exact herr _ _ hnth

/-- The loop goes on through the interruptions. -/
theorem ends_interrupts {t : Retry} :
    Ends body Retry.interrupted {} t ↔
      Ends body Retry.interrupted (body^[o.interrupts] {}) t :=
  ends_iterate fun j hj => by rw [Retry.interrupted, iterate_err hcalls herr hj]; rfl

/-- A failure that is no interruption ends the loop. -/
theorem ends_failure {t : Retry} {errno : Nat} (hfinal : o.final = .failure errno) :
    Ends body Retry.interrupted {} t ↔ body (body^[o.interrupts] {}) = t := by
  have hnth := nth_iterate (o := o) hcalls
  have hne : errno ≠ EINTR := by
    rintro rfl
    exact o.final_ne hfinal
  rw [ends_interrupts hcalls herr, ends_exit]
  rw [Retry.interrupted, herr _ errno (hnth.trans hfinal)]
  simpa using hne

include hkeep

/-- A success after an interruption does not: `err` is what it was. -/
theorem ends_success {t : Retry} {v : Nat} (hfinal : o.final = .success v)
    (hn : 0 < o.interrupts) :
    Ends body Retry.interrupted {} t ↔
      Ends body Retry.interrupted (body (body^[o.interrupts] {})) t := by
  obtain ⟨n, hn⟩ := Nat.exists_eq_succ_of_ne_zero (Nat.ne_of_gt hn)
  have hnth := nth_iterate (o := o) hcalls
  have hlast := iterate_err hcalls herr (k := n) (by omega)
  rw [ends_interrupts hcalls herr, ends_again]
  rw [Retry.interrupted, hkeep _ v (hnth.trans hfinal), hn, hlast]
  rfl

end

/-! ### `connect` -/

section
variable (sys : System)

theorem connectBody_calls (s : Retry) : (connectBody sys s).calls = s.calls + 1 := by
  simp only [connectBody]
  split
  · split <;> rfl
  · rfl

theorem connectBody_err {s : Retry} {errno : Nat}
    (h : (sys .connect).nth s.calls = .failure errno) : (connectBody sys s).err = errno := by
  simp only [connectBody, h]
  split <;> rfl

theorem connectBody_keep {s : Retry} {v : Nat} (h : (sys .connect).nth s.calls = .success v) :
    connectBody sys s = { s with result := { s.result with int := v }, calls := s.calls + 1 } := by
  simp only [connectBody, h]
  rfl

theorem connectBody_result {s : Retry} {errno : Nat}
    (h : (sys .connect).nth s.calls = .failure errno) :
    (connectBody sys s).result = classify (· = EINPROGRESS) (.failure errno) := by
  simp only [connectBody, h, classify]
  split <;> rfl

theorem connectBody_category {s : Retry} {errno : Nat}
    (h : (sys .connect).nth s.calls = .failure errno) :
    (connectBody sys s).result.error.category ≠ .uninitialized := by
  rw [connectBody_result sys h]
  simp only [classify]
  split <;> simp

/-- Once an error is in the result there always is one. -/
theorem connectBody_category_keep {s : Retry} (hs : s.result.error.category ≠ .uninitialized) :
    (connectBody sys s).result.error.category ≠ .uninitialized := by
  cases h : (sys .connect).nth s.calls with
  | failure errno => exact connectBody_category sys h
  | success v => rw [connectBody_keep sys h]; exact hs

/-- `connect` gives the final result exactly when it is a failure or the first one: after an
    interruption and a success it goes on, and whatever it returns has an error. -/
theorem connect_final_iff :
    Returns (connect sys) (classify (· = EINPROGRESS) (sys .connect).final) ↔
      (sys .connect).interrupts = 0 ∨ (sys .connect).final.failed = true := by
  have hcalls := connectBody_calls sys
  have herr : ∀ s errno, (sys .connect).nth s.calls = .failure errno →
      (connectBody sys s).err = errno := fun s errno => connectBody_err sys
  have hnth := nth_iterate (o := sys .connect) hcalls
  unfold connect
  rw [returns_map]
  cases hfinal : (sys .connect).final with
  | failure errno =>
    simp only [SysResult.failed, or_true, iff_true]
    refine ⟨_, (ends_failure hcalls herr hfinal).mpr rfl, ?_⟩
    exact connectBody_result sys (hnth.trans hfinal)
  | success v =>
    have hbody := connectBody_keep sys (hnth.trans hfinal)
    simp only [SysResult.failed, Bool.false_eq_true, or_false]
    constructor
    · rintro ⟨t, hends, hresult⟩
      by_contra hn
      have hpos := Nat.pos_of_ne_zero hn
      rw [ends_success hcalls herr (fun s v h => by rw [connectBody_keep sys h]) hfinal hpos]
        at hends
      -- the last interruption has left its error in the result
      obtain ⟨n, hn⟩ := Nat.exists_eq_succ_of_ne_zero hn
      have hlast : (sys .connect).nth ((connectBody sys)^[n] {}).calls = .failure EINTR := by
        rw [iterate_calls hcalls, Outcomes.nth, if_pos (by simp [hn])]
      have hcat := connectBody_category sys hlast
      rw [← Function.iterate_succ_apply' (connectBody sys), ← hn] at hcat
      have herror := (hends.spec (I := fun s => s.result.error.category ≠ .uninitialized)
        (fun s => connectBody_category_keep sys)
        (connectBody_category_keep sys (connectBody_category_keep sys hcat))).1
      rw [hresult] at herror
      exact herror rfl
    · intro hn
      simp only [hn, Function.iterate_zero, id_eq] at hbody
      refine ⟨_, (ends_exit ?_).mpr rfl, ?_⟩
      · rw [hbody]; rfl
      · rw [hbody]; rfl

end

/-! ### `IOHandle::reset` -/

section
variable (sys : System)

theorem closeBody_calls (s : Retry) : (closeBody sys s).calls = s.calls + 1 := by
  simp only [closeBody]
  split <;> rfl

theorem closeBody_err {s : Retry} {errno : Nat}
    (h : (sys .close).nth s.calls = .failure errno) : (closeBody sys s).err = errno := by
  simp only [closeBody, h]

theorem closeBody_keep {s : Retry} {v : Nat} (h : (sys .close).nth s.calls = .success v) :
    (closeBody sys s).err = s.err := by
  simp only [closeBody, h]

/-- `reset` stores the new handle and has made no call of `close` after one that succeeded. -/
def ResetsOnce (handle filedesc : Int) : Prop :=
  ∃ calls, Returns (IOHandle.reset sys handle filedesc) (filedesc, calls) ∧
    ∀ i, i + 1 < calls → ((sys .close).nth i).failed = true

theorem reset_once_iff (handle filedesc : Int) :
    ResetsOnce sys handle filedesc ↔ handle = InvalidNativeHandle ∨
      (sys .close).interrupts = 0 ∨ (sys .close).final.failed = true := by
  have hcalls := closeBody_calls sys
  have herr : ∀ s errno, (sys .close).nth s.calls = .failure errno →
      (closeBody sys s).err = errno := fun s errno => closeBody_err sys
  have hnth := nth_iterate (o := sys .close) hcalls
  by_cases hhandle : handle = InvalidNativeHandle
  · simp only [hhandle, true_or, iff_true]
    exact ⟨0, ⟨0, by simp [IOHandle.reset]⟩, by simp⟩
  have hret : ∀ calls, Returns (IOHandle.reset sys handle filedesc) (filedesc, calls) ↔
      ∃ t, Ends (closeBody sys) Retry.interrupted {} t ∧ t.calls = calls := by
    intro calls
    have hreset : IOHandle.reset sys handle filedesc = fun fuel =>
        (doWhile (closeBody sys) Retry.interrupted fuel {}).map fun s => (filedesc, s.calls) := by
      funext fuel
      rw [IOHandle.reset, if_pos hhandle]
    rw [hreset, returns_map]
    simp
  simp only [ResetsOnce, hret, hhandle, false_or]
  cases hfinal : (sys .close).final with
  | failure errno =>
    simp only [SysResult.failed, or_true, iff_true]
    refine ⟨_, ⟨_, (ends_failure hcalls herr hfinal).mpr rfl, rfl⟩, fun i hi => ?_⟩
    rw [hcalls, iterate_calls hcalls] at hi
    rw [Outcomes.nth, if_pos (by simpa using hi)]
  | success v =>
    simp only [SysResult.failed, Bool.false_eq_true, or_false]
    constructor
    · rintro ⟨calls, ⟨t, hends, rfl⟩, hfailed⟩
      by_contra hn
      rw [ends_success hcalls herr (fun s v => closeBody_keep sys) hfinal (Nat.pos_of_ne_zero hn)]
        at hends
      -- at least one more round after the one that succeeded
      have hmore := (hends.spec (I := fun s => (sys .close).interrupts + 1 < s.calls)
        (fun s hs => by rw [hcalls]; omega) (by simp [hcalls, iterate_calls hcalls])).1
      have hsuccess := hfailed _ hmore
      simp [Outcomes.nth, hfinal] at hsuccess
    · intro hn
      simp only [hn, Function.iterate_zero, id_eq] at hnth
      refine ⟨1, ⟨_, (ends_exit ?_).mpr rfl, hcalls _⟩, by omega⟩
      rw [Retry.interrupted, closeBody_keep sys (hnth.trans hfinal)]
      rfl

end

/-- Every wrapper on the results that the kernel gives: each gives back the value and the error
    classification of the final result if the first call is not interrupted; `connect` and `reset` also
    if the final result is a failure. -/
theorem retried_iff (sys : System) (handle filedesc : Int) :
    (∀ w ∈ wrappers, Returns (w.2 sys)
        (classify (fun e => e = EAGAIN ∨ e = EWOULDBLOCK) (sys w.1).final) ↔
      (sys w.1).interrupts = 0) ∧
    (Returns (connect sys) (classify (· = EINPROGRESS) (sys .connect).final) ↔
      (sys .connect).interrupts = 0 ∨ (sys .connect).final.failed = true) ∧
    (ResetsOnce sys handle filedesc ↔ handle = InvalidNativeHandle ∨
      (sys .close).interrupts = 0 ∨ (sys .close).final.failed = true) := by
  refine ⟨fun w hw => ?_, connect_final_iff sys, reset_once_iff sys handle filedesc⟩
  rw [wrappers_convert hw]
  exact convert_final_iff (sys w.1)

/-- One interruption, a success, and errors for whatever comes behind it: `recv` never returns, `connect`
    calls again and gives the error, and `reset` calls `close` a third time. -/
theorem not_retried :
    let sys : System := fun _ => ⟨1, .success 0, fun _ => .failure 106, by simp⟩
    (∀ fuel, recv sys fuel = none) ∧
      connect sys 3 = some { error := ⟨106, categoryPosix⟩, int := -1 } ∧
      IOHandle.reset sys 3 InvalidNativeHandle 3 = some (InvalidNativeHandle, 3) := by
  refine ⟨fun fuel => ?_, by decide, by decide⟩
  cases h : recv _ fuel with
  | none => rfl
  | some a => exact absurd ⟨fuel, h⟩ (convert_diverges a)

end Jinx.Posix
