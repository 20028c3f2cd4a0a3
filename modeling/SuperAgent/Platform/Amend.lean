import SuperAgent.Platform.Persisted

/-!
# Amendments

An amendment is written over the exits that are armed: all of it, or none. What
keeps the exits it does not name as they are is that a stop is armed only with a
bound, and that its bounds, and those of every row, are shares.
-/

namespace SuperAgent.Platform

open Fixed (D)
open Venue (Position)

variable {ι : Type}

/-! ## The exits of a symbol -/

namespace Exits

variable {x x' : Exits ι} {account symbol : String}

/-- When a symbol's position is closed, if it is. -/
def deadline (x : Exits ι) (symbol : String) : Option Time := (x.timers symbol).map Timer.closesAt

/-- The share a symbol's position may lose, zero for no bound. -/
def maxLoss (x : Exits ι) (symbol : String) : D := ((x.stops symbol).map Stop.maxLoss).getD 0

/-- The share a symbol's position may make, zero for no bound. -/
def takeProfit (x : Exits ι) (symbol : String) : D := ((x.stops symbol).map Stop.takeProfit).getD 0

/-- Stops are armed with bounds, and all bounds are shares. -/
structure Sound (x : Exits ι) : Prop where
  stops : ∀ y st, x.stops y = some st → st.Proper
  rows : ∀ b y row, x.rows b y = some row → 0 ≤ row.maxLoss ∧ 0 ≤ row.takeProfit

/-- What is armed and persisted in one was so in the other. -/
structure Within (x' x : Exits ι) : Prop where
  stops : ∀ y st, x'.stops y = some st → x.stops y = some st
  rows : ∀ b y row, x'.rows b y = some row → x.rows b y = some row

theorem Within.refl (x : Exits ι) : x.Within x := ⟨fun _ _ h => h, fun _ _ _ h => h⟩

theorem Within.trans {x'' : Exits ι} (h : x''.Within x') (h' : x'.Within x) : x''.Within x :=
  ⟨fun y st hst => h'.stops y st (h.stops y st hst),
    fun b y row hrow => h'.rows b y row (h.rows b y row hrow)⟩

theorem Sound.within (h : x.Sound) (hin : x'.Within x) : x'.Sound :=
  ⟨fun y st hst => h.stops y st (hin.stops y st hst),
    fun b y row hrow => h.rows b y row (hin.rows b y row hrow)⟩

/-- The rows after one was saved. -/
theorem saveHorizon_rows (row : Horizon ι) (b y : String) :
    (x.saveHorizon account symbol row).rows b y =
      if b = account ∧ y = symbol then some row else x.rows b y := by
  by_cases hb : b = account
  · subst hb
    by_cases hy : y = symbol <;> simp [saveHorizon, hy]
  · simp [saveHorizon, hb]

/-- The rows after one was deleted. -/
theorem deleteHorizon_rows (b y : String) : (x.deleteHorizon account symbol).rows b y =
    if b = account ∧ y = symbol then none else x.rows b y := by
  by_cases hb : b = account
  · subst hb
    by_cases hy : y = symbol <;> simp [deleteHorizon, hy]
  · simp [deleteHorizon, hb]

theorem Sound.ite {c : Prop} [Decidable c] (h : c → x.Sound) (h' : ¬ c → x'.Sound) :
    (if c then x else x').Sound := by
  split
  · next hc => exact h hc
  · next hc => exact h' hc

theorem Sound.schedule (h : x.Sound) (t : Timer ι) : (x.schedule symbol t).Sound :=
  ⟨h.stops, h.rows⟩

theorem Sound.armStop {st : Stop ι} (h : x.Sound) (symbol : String) (hst : st.Proper) :
    (x.armStop symbol st).Sound := by
  refine ⟨fun y st' hy => ?_, h.rows⟩
  change Function.update x.stops symbol (some st) y = some st' at hy
  by_cases heq : y = symbol
  · rw [heq, Function.update_self] at hy
    exact Option.some.inj hy ▸ hst
  · rw [Function.update_of_ne heq] at hy
    exact h.stops y st' hy

theorem Sound.saveHorizon {row : Horizon ι} (h : x.Sound) (hm : 0 ≤ row.maxLoss)
    (ht : 0 ≤ row.takeProfit) : (x.saveHorizon account symbol row).Sound := by
  refine ⟨h.stops, fun b y row' hrow => ?_⟩
  rw [saveHorizon_rows] at hrow
  split at hrow
  · exact Option.some.inj hrow ▸ ⟨hm, ht⟩
  · exact h.rows b y row' hrow

theorem disarmStop_within (x : Exits ι) (symbol : String) : (x.disarmStop symbol).Within x := by
  refine ⟨fun y st hst => ?_, fun _ _ _ h => h⟩
  change Function.update x.stops symbol none y = some st at hst
  by_cases heq : y = symbol
  · rw [heq, Function.update_self] at hst
    cases hst
  · rwa [Function.update_of_ne heq] at hst

theorem deleteHorizon_within : (x.deleteHorizon account symbol).Within x := by
  refine ⟨fun _ _ h => h, fun b y row hrow => ?_⟩
  rw [deleteHorizon_rows] at hrow
  split at hrow
  · cases hrow
  · exact hrow

end Exits

/-! ## Closing arms nothing -/

section Close

variable {s : Service ι} {symbol : String} {reason : CloseReason} {a : CloseAnswers}

theorem Service.disarm_within (deletes : Bool) :
    (s.disarm symbol deletes).exits.Within s.exits := by
  have hstop : ((s.exits.cancel symbol).disarmStop symbol).Within s.exits :=
    (Exits.disarmStop_within _ _).trans ⟨fun _ _ h => h, fun _ _ _ h => h⟩
  unfold disarm
  dsimp only
  split
  · exact Exits.deleteHorizon_within.trans hstop
  · exact hstop

theorem Service.admitClose_within : (s.admitClose a symbol).1.exits.Within s.exits := by
  have hdis : (s.disarm symbol a.deletes).exits.Within s.exits := disarm_within a.deletes
  unfold admitClose
  dsimp only
  split
  · exact hdis
  · split
    · exact hdis
    · split <;> exact hdis

theorem Service.settleClose_within {pos : Position} {placed : Venue.Order} :
    (s.settleClose a symbol reason pos placed).1.exits.Within s.exits := by
  unfold settleClose
  split
  · dsimp only
    split <;> exact ⟨fun _ _ h => h, fun _ _ _ h => h⟩
  · exact .refl s.exits

/-- A close arms nothing, whatever the venue answers. -/
theorem Service.close_within : (s.close a symbol reason).1.exits.Within s.exits := by
  have hgate : (s.admitClose a symbol).1.exits.Within s.exits := admitClose_within
  cases hr : (s.admitClose a symbol).2 with
  | error e => rwa [close_denied hr]
  | ok pos =>
    rw [close_admitted hr]
    split
    · exact hgate
    · split
      · exact hgate
      · exact settleClose_within.trans hgate

theorem Service.closeAttempts_within (answers : List CloseAnswers) :
    (s.closeAttempts symbol reason answers).exits.Within s.exits := by
  induction answers generalizing s with
  | nil => exact .refl s.exits
  | cons a rest ih =>
    have hclose : (s.close a symbol reason).1.exits.Within s.exits := close_within
    rw [closeAttempts]
    split <;> next h =>
      rw [h] at hclose
      first
      | exact hclose
      | exact ih.trans hclose

theorem Service.fireTimer_within (answers : Nat → CloseAnswers) :
    (s.fireTimer symbol answers).exits.Within s.exits := by
  have hfired : (s.fireTimer symbol answers).exits.Within (s.exits.cancel symbol) :=
    closeAttempts_within _
  exact ⟨hfired.stops, hfired.rows⟩

end Close

/-! ## What is armed is sound -/

section Sound

variable {s t : Service ι} {now : Time} {tag : ι} {req : OpenRequest}

/-- Arming a checked request's exits arms shares. -/
theorem Service.armExits_sound {saves : Bool} (h : s.exits.Sound) (hm : 0 ≤ req.maxLoss)
    (ht : 0 ≤ req.takeProfit) : (s.armExits now tag req saves).exits.Sound := by
  have hproper : 0 < req.maxLoss ∨ 0 < req.takeProfit →
      (⟨req.maxLoss, req.takeProfit, tag⟩ : Stop ι).Proper := fun hb =>
    ⟨hm, ht, by simpa [bounded] using hb⟩
  have hstop {timer : Exits ι} (htimer : timer.Sound) := Exits.Sound.ite
    (fun hb => htimer.armStop req.symbol (hproper hb)) fun _ => htimer
  refine (fun htimer : Exits.Sound _ =>
    Exits.Sound.ite (fun _ => (hstop htimer).saveHorizon hm ht) fun _ => hstop htimer) ?_
  split
  · exact h.schedule _
  · exact h

/-- Re-arming a symbol with shares arms shares. -/
theorem Service.rearm_sound {symbol : String} {extend : Duration} {closesAt : Option Time}
    {maxLoss takeProfit : D} {saves : Bool} (h : s.exits.Sound) (hm : 0 ≤ maxLoss)
    (ht : 0 ≤ takeProfit) :
    (s.rearm symbol extend closesAt maxLoss takeProfit tag saves).exits.Sound := by
  have hproper : bounded maxLoss takeProfit = true →
      (⟨maxLoss, takeProfit, tag⟩ : Stop ι).Proper := fun hb => ⟨hm, ht, hb⟩
  have hstop {timer : Exits ι} (htimer : timer.Sound) :=
    Exits.Sound.ite (fun hb => htimer.armStop symbol (hproper hb)) fun _ =>
      htimer.within (Exits.disarmStop_within _ symbol)
  refine (fun htimer : Exits.Sound _ => Exits.Sound.ite (fun _ => hstop htimer) fun _ =>
    .ite (fun _ => (hstop htimer).saveHorizon hm ht) fun _ =>
      (hstop htimer).within Exits.deleteHorizon_within) ?_
  split
  · split
    · exact h.schedule _
    · exact h
  · exact h

/-- The bounds an amendment leaves are shares. -/
theorem Exits.Sound.requested {x : Exits ι} {r req : AmendRequest} (h : x.Sound)
    (hcheck : req.check = .ok r) (symbol : String) :
    0 ≤ r.maxLoss.getD (x.maxLoss symbol) ∧ 0 ≤ r.takeProfit.getD (x.takeProfit symbol) := by
  obtain ⟨hloss, hprofit⟩ := AmendRequest.check_bounds hcheck
  refine ⟨getD_nonneg hloss (getD_nonneg ?_ (by decide)),
    getD_nonneg hprofit (getD_nonneg ?_ (by decide))⟩
  · intro m hm
    obtain ⟨st, hst, rfl⟩ := Option.map_eq_some_iff.mp hm
    exact (h.stops symbol st hst).maxLoss
  · intro m hm
    obtain ⟨st, hst, rfl⟩ := Option.map_eq_some_iff.mp hm
    exact (h.stops symbol st hst).takeProfit

end Sound

/-! ## One amendment -/

section Amend

variable {s : Service ι} {a : AmendAnswers} {tag : ι} {req r : AmendRequest} {symbol : String}
  {extend : Duration} {closesAt : Option Time} {maxLoss takeProfit : D} {saves : Bool}

/-- Where a deadline is pushed out from: where it stands, unless that is past. -/
def pushedFrom (now : Time) (pending : Option Time) : Time := max now (pending.getD now)

/-- A push leaves the deadline as it is or as much later as it says, no further from now than the
longest horizon. -/
theorem pushOut_eq_ok {now : Time} {pending : Option Time} :
    pushOut now pending extend = .ok closesAt ↔
      (closesAt = if 0 < extend then some ((pushedFrom now pending).add extend) else pending) ∧
        (0 < extend → (pushedFrom now pending).add extend - now ≤ maxHorizon.toInt) := by
  have hfrom : (pending.filter fun t => now < t).getD now = pushedFrom now pending := by
    cases pending with
    | none => exact (max_self now).symm
    | some t =>
      rw [Option.filter_some, pushedFrom, Option.getD_some]
      by_cases hlt : now < t
      · rw [if_pos (decide_eq_true hlt), Option.getD_some, max_eq_right hlt.le]
      · rw [if_neg (by simpa using hlt), Option.getD_none, max_eq_left (not_lt.mp hlt)]
  have hmax : maxHorizon.toInt = 86400000000000 := by decide
  have hfar : ∀ t : Time, maxHorizon < t.sub now ↔ ¬ t - now ≤ maxHorizon.toInt := by
    intro t
    have hclamp : ∀ d : Int, 86400000000000 < max (-2 ^ 63) (min (2 ^ 63 - 1) d) ↔
        ¬ d ≤ 86400000000000 := by
      intro d
      omega
    rw [Int64.lt_iff_toInt_lt, Time.toInt_sub, hmax]
    exact hclamp (t - now)
  unfold pushOut
  dsimp only
  rw [hfrom]
  by_cases hpos : 0 < extend
  · simp only [hpos, if_true, forall_const, hfar]
    by_cases hle : (pushedFrom now pending).add extend - now ≤ maxHorizon.toInt
    · simp only [hle, not_true, if_false, and_true, Except.ok.injEq, eq_comm]
    · simp only [hle, not_false_iff, if_true, and_false, reduceCtorEq]
  · simp only [hpos, if_false, false_implies, and_true, Except.ok.injEq, eq_comm]

/-- A checked amendment goes by the symbol as the platform keys it. -/
theorem AmendRequest.check_eq_ok (h : req.check = .ok r) :
    r = { req with symbol := symbolOf req.symbol } := by
  simp only [check, bind_eq_ok] at h
  obtain ⟨_, _, _, _, _, _, _, _, hreq⟩ := h
  exact (Except.ok.inj hreq).symm

theorem AmendRequest.check_extend (h : req.check = .ok r) : ¬ req.extend < 0 := by
  simp only [check, bind_eq_ok, revertIf_eq_ok] at h
  obtain ⟨_, _, _, _, _, _, _, hextend, -⟩ := h
  exact hextend

/-- What an amendment that succeeds went by. -/
theorem Service.amend_eq_ok {out : Amended} (h : (s.amend a tag req).2 = .ok out) :
    ∃ r closesAt, req.check = .ok r ∧
      pushOut a.now (s.exits.deadline r.symbol) r.extend = .ok closesAt ∧
      out = ⟨r.symbol, closesAt, r.maxLoss.getD (s.exits.maxLoss r.symbol),
        r.takeProfit.getD (s.exits.takeProfit r.symbol)⟩ ∧
      (s.amend a tag req).1 = s.rearm r.symbol r.extend closesAt
        (r.maxLoss.getD (s.exits.maxLoss r.symbol))
        (r.takeProfit.getD (s.exits.takeProfit r.symbol)) tag a.saves := by
  unfold amend at h ⊢
  cases hcheck : req.check with
  | error e =>
    rw [hcheck] at h
    cases h
  | ok r =>
    rw [hcheck] at h
    dsimp only at h ⊢
    cases hpositions : a.positions with
    | error e =>
      rw [hpositions] at h
      cases h
    | ok positions =>
      rw [hpositions] at h
      dsimp only at h ⊢
      split at h
      · cases h
      · next hopen =>
        rw [if_neg hopen]
        cases hpush : pushOut a.now ((s.exits.timers r.symbol).map Timer.closesAt) r.extend with
        | error e =>
          rw [hpush] at h
          cases h
        | ok closesAt =>
          rw [hpush] at h
          exact ⟨r, closesAt, rfl, hpush, (Except.ok.inj h).symm, rfl⟩

/-- An amendment of an open position succeeds when its deadline may be pushed out. -/
theorem Service.amend_ok (tag : ι) {positions : List Position} {p : Position}
    (hcheck : req.check = .ok r)
    (hpositions : a.positions = .ok positions) (hp : p ∈ positions) (hsymbol : p.symbol = r.symbol)
    (hpush : pushOut a.now (s.exits.deadline r.symbol) r.extend = .ok closesAt) :
    ∃ out, (s.amend a tag req).2 = .ok out := by
  have hopen : ¬ ∀ p ∈ positions, p.symbol ≠ r.symbol := fun h => h p hp hsymbol
  have hpush' : pushOut a.now ((s.exits.timers r.symbol).map Timer.closesAt) r.extend =
      .ok closesAt := hpush
  unfold amend
  rw [hcheck]
  dsimp only
  rw [hpositions]
  dsimp only
  rw [if_neg hopen, hpush']
  exact ⟨_, rfl⟩

/-- An amendment that fails leaves everything as it is. -/
theorem Service.amend_eq_error {e : Error} (h : (s.amend a tag req).2 = .error e) :
    (s.amend a tag req).1 = s := by
  unfold amend at h ⊢
  split
  · rfl
  · next hcheck =>
    rw [hcheck] at h
    dsimp only at h ⊢
    split
    · rfl
    · next hpositions =>
      rw [hpositions] at h
      dsimp only at h ⊢
      split
      · rfl
      · next hopen =>
        rw [if_neg hopen] at h
        split
        · rfl
        · next hpush =>
          rw [hpush] at h
          cases h

/-- What re-arming a symbol leaves there, whether or not its row is written. -/
theorem Service.rearm_armed (maxLoss takeProfit : D) (tag : ι) (saves : Bool)
    (hpush : 0 < extend → closesAt.isSome)
    (hstay : ¬ 0 < extend → closesAt = s.exits.deadline symbol) :
    (s.rearm symbol extend closesAt maxLoss takeProfit tag saves).exits.deadline symbol =
      closesAt ∧
    (s.rearm symbol extend closesAt maxLoss takeProfit tag saves).exits.stops symbol =
      if bounded maxLoss takeProfit then some ⟨maxLoss, takeProfit, tag⟩ else none := by
  have hwrite : ∀ (c d : Prop) [Decidable c] [Decidable d] (x : Exits ι) (row : Horizon ι),
      (if c then x else if d then x.saveHorizon s.account symbol row
        else x.deleteHorizon s.account symbol).timers = x.timers ∧
      (if c then x else if d then x.saveHorizon s.account symbol row
        else x.deleteHorizon s.account symbol).stops = x.stops := by
    intro c d _ _ x row
    split
    · exact ⟨rfl, rfl⟩
    · split <;> exact ⟨rfl, rfl⟩
  obtain ⟨htimers, hstops⟩ := hwrite (¬ s.keepsRows ∨ ¬ saves)
    (closesAt.isSome ∨ bounded maxLoss takeProfit) _ ⟨closesAt, maxLoss, takeProfit, tag⟩
  unfold rearm Exits.deadline
  dsimp only
  rw [htimers, hstops]
  cases closesAt with
  | none =>
    have hstays := hstay fun hpos => absurd (hpush hpos) Bool.false_ne_true
    by_cases hb : bounded maxLoss takeProfit = true <;>
      simpa [hb, Exits.armStop, Exits.disarmStop, Exits.deadline] using hstays.symm
  | some t =>
    by_cases hpos : 0 < extend
    · by_cases hb : bounded maxLoss takeProfit = true <;>
        simp [hb, hpos, Exits.armStop, Exits.disarmStop, Exits.schedule]
    · have hstays := hstay hpos
      by_cases hb : bounded maxLoss takeProfit = true <;>
        simpa [hb, hpos, Exits.armStop, Exits.disarmStop, Exits.deadline] using hstays.symm

/-- What a row says of the exits that were armed when it was written. -/
theorem Service.rearm_described (hk : s.keepsRows = true) (hm : 0 ≤ maxLoss) (ht : 0 ≤ takeProfit)
    (hpush : 0 < extend → closesAt.isSome)
    (hstay : ¬ 0 < extend → closesAt = s.exits.deadline symbol) :
    (s.rearm symbol extend closesAt maxLoss takeProfit tag true).exits.Described s.account
      symbol := by
  obtain ⟨htimer, hstop, hrow⟩ := rearm_exits maxLoss takeProfit tag hk hpush hstay
  rw [Exits.Described, Exits.protection_eq htimer hstop hm ht, hrow]
  split <;> rfl

/-- The row of a symbol is as it was when nothing is written. -/
theorem Service.rearm_unwritten (h : ¬ (s.keepsRows = true ∧ saves = true)) :
    (s.rearm symbol extend closesAt maxLoss takeProfit tag saves).exits.rows = s.exits.rows := by
  have hskip : ¬ s.keepsRows ∨ ¬ saves := not_and_or.mp h
  unfold rearm
  dsimp only
  rw [if_pos hskip]
  split <;> split
  all_goals
    first
    | rfl
    | split <;> rfl

/-- What an amendment changes: the exits it names, to what it names, and the row of the symbol when
it is written. -/
structure Service.Amends (s s' : Service ι) (a : AmendAnswers) (req : AmendRequest)
    (symbol : String) : Prop where
  deadline : s'.exits.deadline symbol = if 0 < req.extend then
    some ((pushedFrom a.now (s.exits.deadline symbol)).add req.extend) else s.exits.deadline symbol
  maxLoss : s'.exits.maxLoss symbol = req.maxLoss.getD (s.exits.maxLoss symbol)
  takeProfit : s'.exits.takeProfit symbol = req.takeProfit.getD (s.exits.takeProfit symbol)
  others : s.exits.SameOff s'.exits s.account symbol
  runs : s'.exits.runs = s.exits.runs
  rest : { s' with exits := s.exits } = s
  written : s.keepsRows = true ∧ a.saves = true → s'.exits.Described s.account symbol
  unwritten : ¬ (s.keepsRows = true ∧ a.saves = true) → s'.exits.rows = s.exits.rows

/-- Bounds are read back from the stop they arm, or are zero. -/
theorem bounds_of_stop {x : Exits ι} (hm : 0 ≤ maxLoss) (ht : 0 ≤ takeProfit)
    (h : x.stops symbol = if bounded maxLoss takeProfit then some ⟨maxLoss, takeProfit, tag⟩
      else none) : x.maxLoss symbol = maxLoss ∧ x.takeProfit symbol = takeProfit := by
  rw [Exits.maxLoss, Exits.takeProfit, h]
  by_cases hb : bounded maxLoss takeProfit = true
  · rw [if_pos hb]
    exact ⟨rfl, rfl⟩
  · obtain ⟨rfl, rfl⟩ := eq_zero_of_not_bounded hm ht (Bool.eq_false_iff.mpr hb)
    rw [if_neg hb]
    exact ⟨rfl, rfl⟩

theorem Service.rearm_rest {saves : Bool} :
    (s.rearm symbol extend closesAt maxLoss takeProfit tag saves).exits.runs = s.exits.runs := by
  unfold rearm
  dsimp only
  split <;> split <;> split
  all_goals
    first
    | rfl
    | split <;> first
      | rfl
      | split <;> rfl

/-- From sound exits, an amendment that succeeds changes what it names. -/
theorem Service.amend_amends {out : Amended} (hsound : s.exits.Sound)
    (h : (s.amend a tag req).2 = .ok out) :
    s.Amends (s.amend a tag req).1 a req (symbolOf req.symbol) := by
  obtain ⟨r, closesAt, hcheck, hpush, -, hs⟩ := amend_eq_ok h
  obtain ⟨hm, ht⟩ := hsound.requested hcheck r.symbol
  have hr := AmendRequest.check_eq_ok hcheck
  have hcloses := (pushOut_eq_ok.mp hpush).1
  have hpushed : 0 < r.extend → closesAt.isSome := (pushOut_spec hpush).1
  have hstays : ¬ 0 < r.extend → closesAt = s.exits.deadline r.symbol := (pushOut_spec hpush).2
  obtain ⟨htimer, hstop⟩ := rearm_armed (s := s) (r.maxLoss.getD (s.exits.maxLoss r.symbol))
    (r.takeProfit.getD (s.exits.takeProfit r.symbol)) tag a.saves hpushed hstays
  obtain ⟨hloss, hprofit⟩ := bounds_of_stop hm ht hstop
  rw [hs]
  subst hr
  exact {
    deadline := htimer.trans hcloses
    maxLoss := hloss
    takeProfit := hprofit
    others := rearm_sameOff
    runs := rearm_rest
    rest := rfl
    written := fun hw => by
      rw [hw.2]
      exact rearm_described hw.1 hm ht hpushed hstays
    unwritten := rearm_unwritten }

/-- An amendment keeps exits sound, whatever it answers. -/
theorem Service.amend_sound (h : s.exits.Sound) : (s.amend a tag req).1.exits.Sound := by
  cases hout : (s.amend a tag req).2 with
  | error e =>
    rw [amend_eq_error hout]
    exact h
  | ok out =>
    obtain ⟨r, closesAt, hcheck, -, -, hs⟩ := amend_eq_ok hout
    obtain ⟨hm, ht⟩ := h.requested hcheck r.symbol
    rw [hs]
    exact rearm_sound h hm ht

end Amend

/-! ## Runs -/

/-- What happens to a service: one of its exits' actions, or a read of the state. -/
inductive Service.LiveStep (s : Service Unit) : Option ExitAction → Service Unit → Prop
  | acts {act t} (h : s.ExitStep act t) : s.LiveStep (some act) t
  | reads (now : Time) (balance : D) (positions : List Position) :
      s.LiveStep none (s.readState now (fun _ => ()) balance positions)

section Run

variable {s t : Service Unit} {act : ExitAction} {acts : List (Option ExitAction)}

/-- A new process arms shares from rows of shares. -/
theorem Exits.Sound.restored {x : Exits ι} {rows : List (String × Horizon ι)} (h : x.Sound)
    (hrows : ∀ r ∈ rows, 0 ≤ r.2.maxLoss ∧ 0 ≤ r.2.takeProfit) : (x.restore rows).Sound := by
  induction rows generalizing x with
  | nil => exact h
  | cons r rows ih =>
    obtain ⟨hr, hrest⟩ := List.forall_mem_cons.mp hrows
    have hproper : bounded r.2.maxLoss r.2.takeProfit = true →
        (⟨r.2.maxLoss, r.2.takeProfit, r.2.tag⟩ : Stop ι).Proper := fun hb => ⟨hr.1, hr.2, hb⟩
    have hone : (x.restoreRow r.1 r.2).Sound := by
      refine (fun htimer : Exits.Sound _ =>
        Exits.Sound.ite (fun hb => htimer.armStop r.1 (hproper hb)) fun _ => htimer) ?_
      split
      · exact h.schedule _
      · exact h
    exact ih hone hrest

theorem Service.restart_sound {engine : Policy.Engine} {symbols : List String} (h : s.exits.Sound) :
    (s.restart engine symbols).exits.Sound := by
  have hblank : ({ (Exits.empty : Exits Unit) with rows := s.exits.rows } : Exits Unit).Sound :=
    ⟨fun _ _ hst => absurd hst.symm (Option.some_ne_none _), h.rows⟩
  refine .ite (fun _ => hblank.restored fun r hr => ?_) fun _ => hblank
  obtain ⟨account, -, hr⟩ := List.mem_flatMap.mp hr
  obtain ⟨symbol, -, hr⟩ := List.mem_filterMap.mp hr
  obtain ⟨row, hrow, rfl⟩ := Option.map_eq_some_iff.mp hr
  exact h.rows account symbol row hrow

/-- Every step keeps exits sound, whatever the venue and the database answer. -/
theorem Service.ExitStep.sound (hs : s.ExitStep act t) (h : s.exits.Sound) : t.exits.Sound := by
  cases hs with
  | @opened a req =>
    cases harms : s.arms a req with
    | none =>
      have hsame : s.Unmoved (s.openPosition a () req).1 := openPosition_unmoved harms
      rw [hsame.exits]
      exact h
    | some r =>
      obtain ⟨hcheck, s', hsame, heq⟩ : req.check = .ok r ∧ ∃ s', s.Unmoved s' ∧
          (s.openPosition a () req).1 = s'.armExits a.after () r a.saves := openPosition_arms harms
      obtain ⟨hm, ht⟩ := OpenRequest.check_bounds hcheck
      rw [heq]
      exact armExits_sound (hsame.exits ▸ h) hm ht
  | amended => exact amend_sound h
  | @closed a raw =>
    unfold Service.closePosition
    split
    · exact h
    · exact h.within close_within
  | fired => exact h.within (fireTimer_within _)
  | hit => exact h.within (closeAttempts_within _)
  | restarted => exact restart_sound h

theorem Service.LiveStep.sound {act : Option ExitAction} (hs : s.LiveStep act t)
    (h : s.exits.Sound) : t.exits.Sound := by
  cases hs with
  | acts hstep => exact hstep.sound h
  | reads now balance positions =>
    obtain ⟨-, hstops, hrows⟩ := s.exits.noteAll_frame (fun _ => ()) positions
    exact ⟨fun y st hst => h.stops y st (hstops ▸ hst), fun b y row hrow =>
      h.rows b y row (hrows ▸ hrow)⟩

/-- Nothing is armed yet, and the table of rows is empty. -/
structure Service.Blank (s : Service Unit) : Prop where
  stops : ∀ symbol, s.exits.stops symbol = none
  rows : ∀ account symbol, s.exits.rows account symbol = none

theorem Service.Blank.sound (h : s.Blank) : s.exits.Sound where
  stops y st hst := by cases (h.stops y).symm.trans hst
  rows b y row hrow := by cases (h.rows b y).symm.trans hrow

/-- In every state a service comes to, an amendment that fails changes nothing, and one that
succeeds changes the exits it names to what it names and leaves all others. -/
theorem amend_atomic {s₀ : Service Unit} (hblank : s₀.Blank)
    (hrun : Run Service.LiveStep Always s₀ acts s) (a : AmendAnswers) (req : AmendRequest) :
    (∀ e, (s.amend a () req).2 = .error e → (s.amend a () req).1 = s) ∧
      ∀ out, (s.amend a () req).2 = .ok out →
        s.Amends (s.amend a () req).1 a req (symbolOf req.symbol) := by
  have hsound : s.exits.Sound :=
    hrun.invariant (I := fun s => s.exits.Sound) hblank.sound fun _ _ _ hs _ hstep => hstep.sound hs
  exact ⟨fun e he => Service.amend_eq_error he, fun out hout => Service.amend_amends hsound hout⟩

/-- An order to close a tapped position after a minute. -/
def pushed : AmendRequest := ⟨"btc", none, none, Duration.minute⟩

/-- What it meets outside the service. -/
def tappedOpen : AmendAnswers := ⟨0, .ok [tapped], true⟩

/-- A tapped position without bounds is given a deadline. -/
theorem amend_atomic_tapped : ∃ s acts, Run Service.LiveStep Always started acts s ∧
    (s.amend tappedOpen () pushed).2 = .ok ⟨"BTC", some 60000000000, 0, 0⟩ ∧
      s.Amends (s.amend tappedOpen () pushed).1 tappedOpen pushed "BTC" := by
  have hrun : Run Service.LiveStep Always started [some (.opened (answering filled) tap)] _ :=
    Run.nil.snoc trivial (.acts .opened)
  have hok : ((started.openPosition (answering filled) () tap).1.amend tappedOpen () pushed).2 =
      .ok ⟨"BTC", some 60000000000, 0, 0⟩ := by rfl
  exact ⟨_, _, hrun, hok, (amend_atomic ⟨fun _ => rfl, fun _ _ => rfl⟩ hrun _ _).2 _ hok⟩

end Run

end SuperAgent.Platform
