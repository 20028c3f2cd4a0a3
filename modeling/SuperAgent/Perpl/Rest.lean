import SuperAgent.Core.Table
import SuperAgent.Perpl.Streams

/-!
# Requests over HTTP

A request that the venue is too busy for, or fails at, is made again after a
wait that doubles each time. The markets a request is about come from the
venue's context, which is kept for a while.
-/

namespace SuperAgent.Perpl

/-! ## One request -/

/-- A failed request, with what the venue said. -/
structure HTTPError where
  status : ℕ
  target : String
  body : String
  /-- The edge that answered in the venue's place, or empty. -/
  edge : String
  deriving DecidableEq

namespace HTTPError

def error (e : HTTPError) : String :=
  if e.edge ≠ "" then
    "perpl: " ++ e.target ++ ": HTTP " ++ toString e.status ++ " (edge " ++ e.edge ++ "): " ++
      e.body
  else "perpl: " ++ e.target ++ ": HTTP " ++ toString e.status ++ ": " ++ e.body

/-- Whether repeating the request could succeed. -/
def retryable (e : HTTPError) : Bool := e.status = 429 ∨ 500 ≤ e.status

end HTTPError

/-- Why a request came to nothing. -/
inductive RestError
  | http (e : HTTPError)
  /-- Not sent, not answered, or answered with what cannot be read. -/
  | failed (text : String)
  | gaveUp (target : String) (attempts : ℕ) (last : Option HTTPError)
  /-- The caller gave up during a wait. -/
  | ctx (err : String)
  deriving DecidableEq

def RestError.error : RestError → String
  | .http e => e.error
  | .failed text => text
  | .gaveUp target attempts last =>
    "perpl: " ++ target ++ ": giving up after " ++ toString attempts ++ " attempts: " ++
      (last.map HTTPError.error).getD "%!w(<nil>)"
  | .ctx err => err

/-- What the network makes of an attempt. -/
inductive Reply (β : Type)
  | lost (err : String)
  | response (status : ℕ) (body edge : String) (decoded : Except String β)

/-- What a client does over HTTP. -/
inductive HTTPEvent
  | attempt (target : String)
  | wait (d : Duration)
  deriving DecidableEq

/-- The answer to an attempt may depend on all that was done before, and so may the caller's
patience. -/
structure Endpoint (β : Type) where
  reply : List HTTPEvent → Reply β
  /-- Why the caller gives up before a wait is over. -/
  done : List HTTPEvent → Duration → Option String

/-- How often a request is made at most. -/
def maxAttempts : ℕ := 4

/-- How long an attempt that follows so many others waits. -/
def backoff (attempt : ℕ) : Duration := Int64.ofNat (2 ^ (attempt - 1)) * Duration.second

namespace Endpoint

variable {β : Type}

/-- One attempt. -/
def attempt (net : Endpoint β) (target : String) (log : List HTTPEvent) : Except RestError β :=
  match net.reply log with
  | .lost err => .error (.failed ("perpl: " ++ target ++ ": " ++ err))
  | .response status body edge decoded =>
    if status ≠ 200 then .error (.http ⟨status, target, trimSpace body, edge⟩)
    else decoded.mapError fun err =>
      .failed ("perpl: " ++ target ++ ": decode response: " ++ err)

/-- Only the first attempt does not wait. -/
def pause (net : Endpoint β) (attempt : ℕ) (log : List HTTPEvent) :
    Except String (List HTTPEvent) :=
  if attempt = 0 then .ok log
  else match net.done log (backoff attempt) with
    | some err => .error err
    | none => .ok (log ++ [.wait (backoff attempt)])

/-- The attempts that are left of a request. -/
def retrying (net : Endpoint β) (target : String) :
    ℕ → Option HTTPError → List HTTPEvent → Except RestError β × List HTTPEvent
  | 0, lastErr, log => (.error (.gaveUp target maxAttempts lastErr), log)
  | left + 1, _, log =>
    match net.pause (maxAttempts - (left + 1)) log with
    | .error err => (.error (.ctx err), log)
    | .ok log =>
      match net.attempt target log with
      | .ok out => (.ok out, log ++ [.attempt target])
      | .error (.http he) =>
        if he.retryable then net.retrying target left (some he) (log ++ [.attempt target])
        else (.error (.http he), log ++ [.attempt target])
      | .error err => (.error err, log ++ [.attempt target])

/-- A request, with retries. -/
def doRequest (net : Endpoint β) (target : String) (log : List HTTPEvent) :
    Except RestError β × List HTTPEvent :=
  net.retrying target maxAttempts none log

end Endpoint

/-- Attempts that all were to be repeated, each with the wait after it. -/
def tries (target : String) : ℕ → List HTTPEvent
  | 0 => []
  | k + 1 => tries target k ++ [.attempt target, .wait (backoff (k + 1))]

namespace Endpoint

variable {β : Type} {net : Endpoint β} {target : String} {log log' : List HTTPEvent}
  {r : Except RestError β}

/-- The venue is busy, or fails: the request may be made again. -/
def Busy (net : Endpoint β) (target : String) (log : List HTTPEvent) (e : HTTPError) : Prop :=
  net.attempt target log = .error (.http e) ∧ e.retryable = true

/-- How a request ends at its attempt with a number, counted from zero. -/
inductive Ends (net : Endpoint β) (target : String) (log : List HTTPEvent) (k : ℕ) :
    Except RestError β → Prop
  /-- The attempt succeeds, or fails for good. -/
  | settled : (∀ e, ¬ net.Busy target log e) → Ends net target log k (net.attempt target log)
  /-- It was the last one. -/
  | gaveUp {e : HTTPError} : net.Busy target log e → k + 1 = maxAttempts →
    Ends net target log k (.error (.gaveUp target maxAttempts (some e)))
  /-- The caller does not wait for the next one. -/
  | ctx {e : HTTPError} {err : String} : net.Busy target log e → k + 1 < maxAttempts →
    net.done (log ++ [.attempt target]) (backoff (k + 1)) = some err →
    Ends net target log k (.error (.ctx err))

/-- The attempt with a number, counted from zero, is followed by another one. -/
def Repeats (net : Endpoint β) (target : String) (log : List HTTPEvent) (k : ℕ) : Prop :=
  (∃ e, net.Busy target (log ++ tries target k) e) ∧
    net.done (log ++ tries target k ++ [.attempt target]) (backoff (k + 1)) = none

theorem retrying_busy {left : ℕ} {lastErr : Option HTTPError} {paused : List HTTPEvent}
    {e : HTTPError} (hpause : net.pause (maxAttempts - (left + 1)) log = .ok paused)
    (h : net.Busy target paused e) : net.retrying target (left + 1) lastErr log =
      net.retrying target left (some e) (paused ++ [.attempt target]) := by
  rw [retrying]
  simp only [hpause, h.1, h.2, if_true]

theorem retrying_settled {left : ℕ} {lastErr : Option HTTPError} {paused : List HTTPEvent}
    (hpause : net.pause (maxAttempts - (left + 1)) log = .ok paused)
    (h : ∀ e, ¬ net.Busy target paused e) : net.retrying target (left + 1) lastErr log =
      (net.attempt target paused, paused ++ [.attempt target]) := by
  rw [retrying]
  simp only [hpause]
  cases hattempt : net.attempt target paused with
  | ok out => rfl
  | error err =>
    cases err with
    | http e =>
      have hnot : e.retryable = false := by
        by_contra hretry
        exact h e ⟨hattempt, by simpa using hretry⟩
      simp [hnot]
    | _ => rfl

theorem tries_succ (k : ℕ) : log ++ tries target k ++ [.attempt target] ++
    [.wait (backoff (k + 1))] = log ++ tries target (k + 1) := by
  simp [tries]

/-- From one attempt on, the request is repeated up to the attempt it ends at. -/
def EndsFrom (net : Endpoint β) (target : String) (log : List HTTPEvent) (k : ℕ)
    (r : Except RestError β) (log' : List HTTPEvent) : Prop :=
  ∃ j, k ≤ j ∧ j < maxAttempts ∧ (∀ i, k ≤ i → i < j → net.Repeats target log i) ∧
    net.Ends target (log ++ tries target j) j r ∧
    log' = log ++ tries target j ++ [.attempt target]

theorem Ends.from {k : ℕ} (h : net.Ends target (log ++ tries target k) k r)
    (hk : k < maxAttempts) :
    net.EndsFrom target log k r (log ++ tries target k ++ [.attempt target]) :=
  ⟨k, le_rfl, hk, fun _ hi hlt => absurd hlt (not_lt.mpr hi), h, rfl⟩

theorem EndsFrom.earlier {k : ℕ} (h : net.EndsFrom target log (k + 1) r log')
    (hk : net.Repeats target log k) : net.EndsFrom target log k r log' := by
  obtain ⟨j, hj, hlt, hrepeats, hends, hlog⟩ := h
  refine ⟨j, by omega, hlt, fun i hi hij => ?_, hends, hlog⟩
  obtain rfl | hi := hi.eq_or_lt
  · exact hk
  · exact hrepeats i hi hij

theorem retrying_run {k left : ℕ} {lastErr : Option HTTPError} {before : List HTTPEvent}
    (hk : k + (left + 1) = maxAttempts)
    (hpause : net.pause k before = .ok (log ++ tries target k))
    (h : net.retrying target (left + 1) lastErr before = (r, log')) :
    net.EndsFrom target log k r log' := by
  induction left generalizing k lastErr before with
  | zero =>
    obtain rfl : k = maxAttempts - (0 + 1) := by omega
    by_cases hbusy : ∃ e, net.Busy target (log ++ tries target (maxAttempts - (0 + 1))) e
    · obtain ⟨e, he⟩ := hbusy
      rw [retrying_busy hpause he, retrying, Prod.mk.injEq] at h
      obtain ⟨rfl, rfl⟩ := h
      exact (Ends.gaveUp he hk).from (by omega)
    · have hsettled := not_exists.mp hbusy
      rw [retrying_settled hpause hsettled, Prod.mk.injEq] at h
      obtain ⟨rfl, rfl⟩ := h
      exact (Ends.settled hsettled).from (by omega)
  | succ left ih =>
    have hnum : k = maxAttempts - (left + 1 + 1) := by omega
    by_cases hbusy : ∃ e, net.Busy target (log ++ tries target k) e
    · obtain ⟨e, he⟩ := hbusy
      rw [retrying_busy (hnum ▸ hpause) he] at h
      cases hdone : net.done (log ++ tries target k ++ [.attempt target]) (backoff (k + 1)) with
      | some err =>
        have hnext : maxAttempts - (left + 1) = k + 1 := by omega
        rw [retrying, hnext, pause, if_neg (Nat.succ_ne_zero k), hdone] at h
        simp only [Prod.mk.injEq] at h
        obtain ⟨rfl, rfl⟩ := h
        exact (Ends.ctx he (by omega) hdone).from (by omega)
      | none =>
        have hpaused : net.pause (k + 1) (log ++ tries target k ++ [.attempt target]) =
            .ok (log ++ tries target (k + 1)) := by
          rw [pause, if_neg (Nat.succ_ne_zero k), hdone]
          exact congrArg Except.ok (tries_succ k)
        exact (ih (by omega) hpaused h).earlier ⟨⟨e, he⟩, hdone⟩
    · have hsettled := not_exists.mp hbusy
      rw [retrying_settled (hnum ▸ hpause) hsettled, Prod.mk.injEq] at h
      obtain ⟨rfl, rfl⟩ := h
      exact (Ends.settled hsettled).from (by omega)

/-- A request is made again only while the venue is busy or fails, at most three times, after waits
of one, two and four seconds, and what it comes to is what its last attempt does. -/
theorem doRequest_run (net : Endpoint β) (target : String) (log : List HTTPEvent) :
    ∃ j < maxAttempts, (∀ i < j, net.Repeats target log i) ∧
      net.Ends target (log ++ tries target j) j (net.doRequest target log).1 ∧
      (net.doRequest target log).2 = log ++ tries target j ++ [.attempt target] := by
  have hfirst : net.pause 0 log = .ok (log ++ tries target 0) := by simp [pause, tries]
  have hall : net.retrying target (3 + 1) none log =
      ((net.doRequest target log).1, (net.doRequest target log).2) := rfl
  obtain ⟨j, -, hlt, hrepeats, hends, hlog⟩ := retrying_run (k := 0) rfl hfirst hall
  exact ⟨j, hlt, fun i hi => hrepeats i (Nat.zero_le i) hi, hends, hlog⟩

end Endpoint

end SuperAgent.Perpl
