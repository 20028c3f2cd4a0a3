import SuperAgent.Platform.Mirror

/-!
# Who closes a position

The four ways a close starts: a tap, the horizon timer, the stop or target
watcher, and close-everything. Each goes through the one close path, and the
timer and the watcher try it a few times. What is left armed afterwards does
not depend on what the venue answered.
-/

namespace SuperAgent.Platform

open Fixed (D)
open Venue (Position)

variable {ι : Type}

/-- How often the timer and the watcher try to close. -/
def horizonCloseAttempts : Nat := 3

namespace Service

/-- Try to close until an attempt succeeds or finds no position. -/
def closeAttempts (s : Service ι) (symbol : String) (reason : CloseReason) :
    List CloseAnswers → Service ι
  | [] => s
  | a :: rest =>
    match s.close a symbol reason with
    | (s, .done (.error (.noPosition _))) => s
    | (s, .done (.error _)) => s.closeAttempts symbol reason rest
    | (s, _) => s

/-- The answers of as many attempts as are made. -/
def attempts (answers : Nat → CloseAnswers) : List CloseAnswers :=
  (List.range horizonCloseAttempts).map answers

/-- The horizon timer's callback. -/
def closeOnHorizon (s : Service ι) (symbol : String) (answers : Nat → CloseAnswers) : Service ι :=
  s.closeAttempts symbol .horizon (attempts answers)

/-- The timer fires: its entry is forgotten before the callback runs. -/
def fireTimer (s : Service ι) (symbol : String) (answers : Nat → CloseAnswers) : Service ι :=
  { s with exits := s.exits.cancel symbol }.closeOnHorizon symbol answers

/-- The watcher's close, once a bound was hit. -/
def guardClose (s : Service ι) (symbol : String) (reason : CloseReason)
    (answers : Nat → CloseAnswers) : Service ι :=
  s.closeAttempts symbol reason (attempts answers)

/-- Read balance and positions; every position read widens its excursion. -/
def readState (s : Service ι) (now : Time) (tag : String → ι) (balance : D)
    (positions : List Position) : Service ι :=
  { s.refreshLimits now balance with exits := s.exits.noteAll tag positions }

/-- Close a list of positions one after the other; one failure does not stop the rest. -/
def closeList (answers : String → CloseAnswers) : List Position → Service ι → Service ι
  | [], s => s
  | p :: ps, s => closeList answers ps (s.closePosition (answers p.symbol) p.symbol).1

/-- Close every position a read of the state lists. -/
def closeAll (s : Service ι) (now : Time) (tag : String → ι) (balance : Except VenueError D)
    (positions : Except VenueError (List Position)) (answers : String → CloseAnswers) :
    Service ι :=
  match balance, positions with
  | .ok balance, .ok positions => closeList answers positions (s.readState now tag balance positions)
  | _, _ => s

end Service

/-- How a close starts, with everything it is answered. -/
inductive Closer
  | user (symbol : String) (a : CloseAnswers)
  | timer (symbol : String) (answers : Nat → CloseAnswers)
  | stop (symbol : String) (answers : Nat → CloseAnswers)
  | target (symbol : String) (answers : Nat → CloseAnswers)
  | everything (balance : Except VenueError D) (positions : Except VenueError (List Position))
      (answers : String → CloseAnswers)

namespace Closer

/-- Run a close to its end, or to the end of its last attempt. -/
def run (c : Closer) (s : Service Unit) (now : Time) : Service Unit :=
  match c with
  | .user symbol a => (s.closePosition a symbol).1
  | .timer symbol answers => s.fireTimer symbol answers
  | .stop symbol answers => s.guardClose symbol .stop answers
  | .target symbol answers => s.guardClose symbol .takeProfit answers
  | .everything balance positions answers =>
    s.closeAll now (fun _ => ()) balance positions answers

/-- Whether the close of a symbol is entered at all. -/
def Enters (c : Closer) (symbol : String) : Prop :=
  match c with
  | .user symbol' _ => symbolOf symbol' = symbol ∧ symbol ≠ ""
  | .timer symbol' _ | .stop symbol' _ | .target symbol' _ => symbol' = symbol
  | .everything (.ok _) (.ok positions) _ =>
    ∃ p ∈ positions, symbolOf p.symbol = symbol ∧ symbol ≠ ""
  | .everything _ _ _ => False

/-- Whether the close was started by the symbol's timer. -/
def firedTimer (c : Closer) (symbol : String) : Prop :=
  match c with
  | .timer symbol' _ => symbol' = symbol
  | _ => False

/-- Whether the close was started by the symbol's watcher. -/
def firedStop (c : Closer) (symbol : String) : Prop :=
  match c with
  | .stop symbol' _ | .target symbol' _ => symbol' = symbol
  | _ => False

end Closer

/-- A symbol with a pending timer, an armed stop and a persisted row. -/
structure Service.Armed (s : Service ι) (symbol : String) : Prop where
  keepsRows : s.keepsRows = true
  timer : s.exits.timers symbol ≠ none
  stop : s.exits.stops symbol ≠ none
  row : s.exits.rows s.account symbol ≠ none

/-- The exits other than the one that fired are armed, and the row exists. -/
structure Service.StillArmed (s : Service ι) (c : Closer) (symbol : String) : Prop where
  timer : ¬ c.firedTimer symbol → s.exits.timers symbol ≠ none
  stop : ¬ c.firedStop symbol → s.exits.stops symbol ≠ none
  row : s.exits.rows s.account symbol ≠ none

/-! ## What a close leaves armed -/

/-- Between the two nothing was armed, and only the touched symbols were disarmed. -/
structure Service.Closing (s s' : Service ι) (touched : String → Prop) : Prop where
  account : s'.account = s.account
  timers : ∀ y, s'.exits.timers y = s.exits.timers y ∨ touched y ∧ s'.exits.timers y = none
  stops : ∀ y, s'.exits.stops y = s.exits.stops y ∨ touched y ∧ s'.exits.stops y = none
  rows : ∀ y, ¬ touched y → s'.exits.rows s.account y = s.exits.rows s.account y

namespace Service

variable {s s' s'' : Service ι} {touched wider : String → Prop} {a : CloseAnswers}
  {symbol : String} {reason : CloseReason}

theorem Closing.refl (s : Service ι) (touched : String → Prop) : s.Closing s touched :=
  ⟨rfl, fun _ => .inl rfl, fun _ => .inl rfl, fun _ _ => rfl⟩

theorem Closing.mono (h : s.Closing s' touched) (hle : ∀ y, touched y → wider y) :
    s.Closing s' wider :=
  ⟨h.account, fun y => (h.timers y).imp_right (And.imp_left (hle y)),
    fun y => (h.stops y).imp_right (And.imp_left (hle y)),
    fun y hy => h.rows y fun ht => hy (hle y ht)⟩

theorem Closing.trans (h : s.Closing s' touched) (h' : s'.Closing s'' touched) :
    s.Closing s'' touched where
  account := h'.account.trans h.account
  timers y := by
    rcases h'.timers y with heq | hnone
    · rw [heq]
      exact h.timers y
    · exact .inr hnone
  stops y := by
    rcases h'.stops y with heq | hnone
    · rw [heq]
      exact h.stops y
    · exact .inr hnone
  rows y hy := by
    rw [← h.rows y hy, ← h.account]
    exact h'.rows y hy

/-- What is disarmed stays so. -/
theorem Closing.none (h : s.Closing s' touched) :
    (∀ y, s.exits.timers y = .none → s'.exits.timers y = .none) ∧
      ∀ y, s.exits.stops y = .none → s'.exits.stops y = .none := by
  constructor
  · intro y hy
    rcases h.timers y with heq | ⟨_, hnone⟩
    · exact heq.trans hy
    · exact hnone
  · intro y hy
    rcases h.stops y with heq | ⟨_, hnone⟩
    · exact heq.trans hy
    · exact hnone

/-- Disarming touches one symbol and leaves it without timer and stop. -/
theorem disarm_closing (deletes : Bool) : s.Closing (s.disarm symbol deletes) (· = symbol) ∧
    (s.disarm symbol deletes).exits.timers symbol = .none ∧
    (s.disarm symbol deletes).exits.stops symbol = .none := by
  have htimers : (s.disarm symbol deletes).exits.timers =
      Function.update s.exits.timers symbol .none := by
    unfold disarm
    dsimp only
    split <;> rfl
  have hstops : (s.disarm symbol deletes).exits.stops =
      Function.update s.exits.stops symbol .none := by
    unfold disarm
    dsimp only
    split <;> rfl
  have hrows : ∀ y, y ≠ symbol →
      (s.disarm symbol deletes).exits.rows s.account y = s.exits.rows s.account y := by
    intro y hy
    unfold disarm
    dsimp only
    split
    · simp [Exits.deleteHorizon, Exits.disarmStop, Exits.cancel, Function.update_of_ne hy]
    · rfl
  refine ⟨⟨rfl, fun y => ?_, fun y => ?_, hrows⟩, by rw [htimers, Function.update_self],
    by rw [hstops, Function.update_self]⟩
  · rw [htimers]
    by_cases hy : y = symbol
    · exact .inr ⟨hy, by rw [hy, Function.update_self]⟩
    · exact .inl (Function.update_of_ne hy _ _)
  · rw [hstops]
    by_cases hy : y = symbol
    · exact .inr ⟨hy, by rw [hy, Function.update_self]⟩
    · exact .inl (Function.update_of_ne hy _ _)

/-- Recording a close arms and disarms nothing. -/
theorem settleClose_closing {pos : Position} {placed : Venue.Order} :
    s.Closing (s.settleClose a symbol reason pos placed).1 touched := by
  unfold settleClose
  split
  · refine ⟨rfl, fun y => .inl ?_, fun y => .inl ?_, fun y _ => ?_⟩ <;>
      · dsimp only
        split <;> rfl
  · exact .refl s touched

/-- Asking the engine for a close only disarms. -/
theorem admitClose_exits : (s.admitClose a symbol).1.exits = (s.disarm symbol a.deletes).exits := by
  unfold admitClose
  dsimp only
  split
  · rfl
  · split
    · rfl
    · split <;> rfl

/-- A close touches its own symbol only, and leaves it without timer and stop. -/
theorem close_closing : s.Closing (s.close a symbol reason).1 (· = symbol) ∧
    (s.close a symbol reason).1.exits.timers symbol = .none ∧
    (s.close a symbol reason).1.exits.stops symbol = .none := by
  obtain ⟨hd, htimer, hstop⟩ : s.Closing (s.disarm symbol a.deletes) (· = symbol) ∧ _ :=
    disarm_closing a.deletes
  have hgate : s.Closing (s.admitClose a symbol).1 (· = symbol) := by
    have hx : (s.admitClose a symbol).1.exits = _ := admitClose_exits
    exact ⟨admitClose_keeps.account, by rw [hx]; exact hd.timers, by rw [hx]; exact hd.stops,
      by rw [hx]; exact hd.rows⟩
  -- whatever the venue answers, recording it arms nothing
  have hclosing : (s.admitClose a symbol).1.Closing (s.close a symbol reason).1 (· = symbol) := by
    cases hr : (s.admitClose a symbol).2 with
    | error e =>
      rw [close_denied hr]
      exact .refl _ _
    | ok pos =>
      rw [close_admitted hr]
      split
      · exact .refl _ _
      · split
        · exact .refl _ _
        · exact settleClose_closing
  rw [← admitClose_exits] at htimer hstop
  exact ⟨hgate.trans hclosing, hclosing.none.1 symbol htimer, hclosing.none.2 symbol hstop⟩

/-- Attempts touch their own symbol only. -/
theorem closeAttempts_closing (answers : List CloseAnswers) :
    s.Closing (s.closeAttempts symbol reason answers) (· = symbol) := by
  induction answers generalizing s with
  | nil => exact .refl s _
  | cons a rest ih =>
    have hclose : s.Closing (s.close a symbol reason).1 (· = symbol) := close_closing.1
    rw [closeAttempts]
    split
    · next h =>
      rw [h] at hclose
      exact hclose
    · next h =>
      rw [h] at hclose
      exact hclose.trans ih
    · next h =>
      rw [h] at hclose
      exact hclose

/-- One attempt is enough to leave the symbol without timer and stop. -/
theorem closeAttempts_disarms (a : CloseAnswers) (rest : List CloseAnswers) :
    (s.closeAttempts symbol reason (a :: rest)).exits.timers symbol = .none ∧
      (s.closeAttempts symbol reason (a :: rest)).exits.stops symbol = .none := by
  have hnone : (s.close a symbol reason).1.exits.timers symbol = .none ∧
      (s.close a symbol reason).1.exits.stops symbol = .none := close_closing.2
  rw [closeAttempts]
  split
  · next h =>
    rw [h] at hnone
    exact hnone
  · next s' _ _ h =>
    rw [h] at hnone
    have hrest : s'.Closing (s'.closeAttempts symbol reason rest) (· = symbol) :=
      closeAttempts_closing rest
    exact ⟨hrest.none.1 symbol hnone.1, hrest.none.2 symbol hnone.2⟩
  · next h =>
    rw [h] at hnone
    exact hnone

/-- A read of the state arms and disarms nothing. -/
theorem readState_closing {now : Time} {tag : String → ι} {balance : D}
    {positions : List Position} : s.Closing (s.readState now tag balance positions) touched := by
  obtain ⟨ht, hs, hr⟩ := s.exits.noteAll_frame tag positions
  refine ⟨?_, fun y => .inl (congrFun ht y), fun y => .inl (congrFun hs y), fun y _ => ?_⟩
  · unfold readState refreshLimits
    split <;> rfl
  · exact congrFun (congrFun hr _) y

/-- A close on request touches its symbol only. -/
theorem closePosition_closing {raw : String} :
    s.Closing (s.closePosition a raw).1 fun y => symbolOf raw = y ∧ y ≠ "" := by
  unfold closePosition
  split
  · exact .refl s _
  · next hne => exact close_closing.1.mono fun y hy => by subst hy; exact ⟨rfl, hne⟩

/-- A close on request leaves its symbol without timer and stop. -/
theorem closePosition_disarms {raw : String} (hne : symbolOf raw ≠ "") :
    (s.closePosition a raw).1.exits.timers (symbolOf raw) = .none ∧
      (s.closePosition a raw).1.exits.stops (symbolOf raw) = .none := by
  rw [closePosition, if_neg hne]
  exact close_closing.2

/-- Closing a list of positions touches their symbols only. -/
theorem closeList_closing (answers : String → CloseAnswers) (positions : List Position) :
    s.Closing (closeList answers positions s)
      fun y => ∃ p ∈ positions, symbolOf p.symbol = y ∧ y ≠ "" := by
  induction positions generalizing s with
  | nil => exact .refl s _
  | cons p ps ih =>
    rw [closeList]
    have hone : s.Closing (s.closePosition (answers p.symbol) p.symbol).1 _ :=
      closePosition_closing
    refine (hone.mono fun y hy => ?_).trans (ih.mono fun y hy => ?_)
    · exact ⟨p, List.mem_cons_self, hy⟩
    · obtain ⟨q, hq, hy⟩ := hy
      exact ⟨q, List.mem_cons_of_mem _ hq, hy⟩

/-- Closing a list of positions leaves each of their symbols without timer and stop. -/
theorem closeList_disarms (answers : String → CloseAnswers) {positions : List Position}
    {p : Position} (hp : p ∈ positions) (hne : symbolOf p.symbol ≠ "") :
    (closeList answers positions s).exits.timers (symbolOf p.symbol) = .none ∧
      (closeList answers positions s).exits.stops (symbolOf p.symbol) = .none := by
  induction positions generalizing s with
  | nil => cases hp
  | cons q qs ih =>
    rw [closeList]
    rcases List.mem_cons.mp hp with rfl | hp
    · obtain ⟨htimer, hstop⟩ : (s.closePosition (answers p.symbol) p.symbol).1.exits.timers _ = _ ∧
          (s.closePosition (answers p.symbol) p.symbol).1.exits.stops _ = _ :=
        closePosition_disarms hne
      generalize (s.closePosition (answers p.symbol) p.symbol).1 = s' at htimer hstop ⊢
      have hrest : s'.Closing _ _ := s'.closeList_closing answers qs
      exact ⟨hrest.none.1 _ htimer, hrest.none.2 _ hstop⟩
    · exact ih hp

end Service

namespace Closer

variable {s : Service Unit} {now : Time} {x : String}

/-- A close touches only the symbols it enters. -/
theorem run_closing (c : Closer) : s.Closing (c.run s now) c.Enters := by
  cases c with
  | user symbol a => exact Service.closePosition_closing
  | timer symbol answers =>
    have hfire : s.Closing { s with exits := s.exits.cancel symbol } (· = symbol) := by
      refine ⟨rfl, fun y => ?_, fun _ => .inl rfl, fun _ _ => rfl⟩
      by_cases hy : y = symbol
      · exact .inr ⟨hy, by simp [Exits.cancel, hy]⟩
      · exact .inl (Function.update_of_ne hy _ _)
    exact (hfire.trans (Service.closeAttempts_closing _)).mono fun y hy => hy.symm
  | stop symbol answers => exact (Service.closeAttempts_closing _).mono fun y hy => hy.symm
  | target symbol answers => exact (Service.closeAttempts_closing _).mono fun y hy => hy.symm
  | everything balance positions answers =>
    cases balance with
    | error e => exact .refl s _
    | ok balance =>
      cases positions with
      | error e => exact .refl s _
      | ok positions =>
        exact Service.readState_closing.trans (Service.closeList_closing answers positions)

/-- A symbol whose close is entered is left without timer and stop. -/
theorem run_disarms (c : Closer) (h : c.Enters x) :
    (c.run s now).exits.timers x = none ∧ (c.run s now).exits.stops x = none := by
  cases c with
  | user symbol a =>
    obtain ⟨rfl, hne⟩ := h
    rw [run]
    exact Service.closePosition_disarms hne
  | timer symbol answers =>
    obtain rfl : symbol = x := h
    exact Service.closeAttempts_disarms _ _
  | stop symbol answers =>
    obtain rfl : symbol = x := h
    exact Service.closeAttempts_disarms _ _
  | target symbol answers =>
    obtain rfl : symbol = x := h
    exact Service.closeAttempts_disarms _ _
  | everything balance positions answers =>
    cases balance with
    | error e => exact h.elim
    | ok balance =>
      cases positions with
      | error e => exact h.elim
      | ok positions =>
        obtain ⟨p, hp, rfl, hne⟩ := h
        rw [run, Service.closeAll]
        exact Service.closeList_disarms answers hp hne

/-- A symbol whose close is not entered keeps what was armed for it. -/
theorem run_keeps (c : Closer) (hs : s.Armed x) (h : ¬ c.Enters x) :
    (c.run s now).StillArmed c x := by
  have hc : s.Closing (c.run s now) c.Enters := c.run_closing
  refine ⟨fun _ => ?_, fun _ => ?_, ?_⟩
  · rcases hc.timers x with heq | ⟨hin, _⟩
    · exact heq ▸ hs.timer
    · exact absurd hin h
  · rcases hc.stops x with heq | ⟨hin, _⟩
    · exact heq ▸ hs.stop
    · exact absurd hin h
  · rw [hc.account, hc.rows x h]
    exact hs.row

/-- Not both the timer and the watcher of a symbol start its close. -/
theorem fired_one (c : Closer) : ¬ c.firedTimer x ∨ ¬ c.firedStop x := by
  cases c with
  | timer symbol answers => exact .inr id
  | _ => exact .inl id

end Closer

/-- A close leaves a position's other exits armed exactly when the venue holds the position no
longer once the last attempt has returned, or the close was never entered: `left` is what the
venue then holds. -/
theorem exits_left_iff {s : Service Unit} {x : String} (hs : s.Armed x) (c : Closer) (now : Time)
    (left : List Position) :
    ((∃ p ∈ left, p.symbol = x) → (c.run s now).StillArmed c x) ↔
      (∀ p ∈ left, p.symbol ≠ x) ∨ ¬ c.Enters x := by
  constructor
  · intro h
    by_cases hin : c.Enters x
    · refine .inl fun p hp hx => ?_
      have harmed := h ⟨p, hp, hx⟩
      obtain ⟨htimer, hstop⟩ : (c.run s now).exits.timers x = none ∧ _ := c.run_disarms hin
      -- at least one of the two was not the exit that fired, and it is gone
      rcases c.fired_one with hf | hf
      · exact harmed.timer hf htimer
      · exact harmed.stop hf hstop
    · exact .inr hin
  · rintro (hgone | hout) ⟨p, hp, hx⟩
    · exact absurd hx (hgone p hp)
    · exact c.run_keeps hs hout

/-- A position with a horizon of ten nanoseconds and a stop at half its collateral. -/
def guarded : Service Unit :=
  { started with exits := ((Exits.empty.schedule "BTC" ⟨10, ()⟩).armStop "BTC"
      ⟨Fixed.fromInt 1, 0, ()⟩).saveHorizon "0xa" "BTC" ⟨some 10, Fixed.fromInt 1, 0, ()⟩ }

theorem guarded_armed : guarded.Armed "BTC" := ⟨rfl, by decide, by decide, by decide⟩

/-- Closing everything when the positions cannot be read leaves the exits armed. -/
theorem exits_left_unread : (Closer.run (.everything (.ok 0) (.error .disconnected) fun _ => closing)
    guarded 0).StillArmed (.everything (.ok 0) (.error .disconnected) fun _ => closing) "BTC" :=
  (exits_left_iff guarded_armed _ 0 [tapped]).mpr (.inr id) ⟨tapped, List.mem_cons_self, rfl⟩

/-- The venue cannot be read. -/
def unread : CloseAnswers :=
  ⟨"2", 0, 0, true, .error .disconnected, fun _ => .error .disconnected⟩

/-- A tap to close while the venue cannot be read: the position is still held, and nothing is
left that would close it. -/
theorem failed_close_disarms : guarded.Armed "BTC" ∧
    ¬ ((∃ p ∈ [tapped], p.symbol = "BTC") →
      (Closer.run (.user "BTC" unread) guarded 0).StillArmed (.user "BTC" unread) "BTC") := by
  refine ⟨guarded_armed, fun h => ?_⟩
  exact (h ⟨tapped, List.mem_cons_self, rfl⟩).timer id (by rfl)

end SuperAgent.Platform
