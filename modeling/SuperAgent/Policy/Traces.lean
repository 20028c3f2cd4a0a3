import SuperAgent.Core.Run
import SuperAgent.Policy.Engine
import Mathlib.Data.List.Chain

/-!
# One group's trading, call by call

The accounts of one group open and close one after the other, each recorded open
right after the order it was authorized for. As long as no sum leaves 64 bits
and no close has a negative notional, the state of the group stays within the
limits of the account that last opened, and the day's loss is what the closes
since midnight add up to.
-/

namespace SuperAgent.Policy

open Fixed (D)

/-- A call of the engine. -/
inductive Call
  | authorize (req : Request)
  | recordOpen (account : String) (notional : D)
  | recordClose (account : String) (notional pnl : D)
  | snapshot (account : String)
  | kill (reason : String)
  | revive

/-- The account a call is about. -/
def Call.account : Call → Option String
  | .authorize req => some req.account
  | .recordOpen account _ => some account
  | .recordClose account _ _ => some account
  | .snapshot account => some account
  | .kill _ => none
  | .revive => none

/-- One group's dealings with an engine, and what was recorded of them. -/
structure Dealings where
  engine : Engine
  /-- Where the group's state lives. -/
  key : String
  clock : Time
  /-- The opening order the last call authorized: its account and its notional. -/
  granted : Option (String × D)
  /-- When positions were opened, and by which account. -/
  opens : List (Time × String)
  /-- When positions were closed, and their results. -/
  closes : List (Time × D)

namespace Dealings

/-- The group's state as an account of it reads it. -/
def read (w : Dealings) (now : Time) : AccountState :=
  ((w.engine.state w.key).getD (.fresh now)).rollDay now

/-- The openings recorded for the group. -/
def book (w : Dealings) : Book := ((w.engine.state w.key).map AccountState.book).getD .flat

/-- The state after a call at a time. -/
def after (w : Dealings) (now : Time) : Call → Dealings
  | .authorize req =>
    let answer := w.engine.authorize now req
    { w with
      engine := answer.1
      clock := now
      granted := if answer.2 = none ∧ req.reduce = false then some (req.account, req.notional)
        else none }
  | .recordOpen account notional =>
    { w with
      engine := w.engine.recordOpen now account notional
      clock := now
      granted := none
      opens := w.opens ++ [(now, account)] }
  | .recordClose account notional pnl =>
    { w with
      engine := w.engine.recordClose now account notional pnl
      clock := now
      granted := none
      closes := w.closes ++ [(now, pnl)] }
  | .snapshot account =>
    { w with engine := (w.engine.snapshot now account).1, clock := now, granted := none }
  | .kill reason => { w with engine := w.engine.kill reason, clock := now, granted := none }
  | .revive => { w with engine := w.engine.revive, clock := now, granted := none }

/-- An open is recorded right after its order was authorized, with at most the order's notional. -/
def allows (w : Dealings) : Call → Bool
  | .recordOpen account notional =>
    w.granted.any fun g => g.1 = account ∧ 0 ≤ notional ∧ notional ≤ g.2
  | _ => true

/-- The state after a call of an account of the group, the clock never going back. -/
def next (w : Dealings) (act : Time × Call) : Option Dealings :=
  if w.clock ≤ act.1 ∧ (∀ account ∈ act.2.account, w.engine.stateKey account = w.key) ∧
      w.allows act.2 then
    some (w.after act.1 act.2)
  else none

/-- One step. -/
abbrev Step (w : Dealings) (act : Time × Call) (w' : Dealings) : Prop := w.next act = some w'

/-- No sum a call forms leaves 64 bits, and no close has a negative notional. -/
def Exact (w : Dealings) : Time × Call → Prop
  | (_, .authorize req) => ∀ l, w.engine.limits req.account = some l → 0 < l.maxTotalExposure →
      w.book.exposure.toInt + req.notional.toInt < 2 ^ 63
  | (_, .recordOpen _ notional) => w.book.exposure.toInt + notional.toInt < 2 ^ 63
  | (now, .recordClose _ notional pnl) => 0 ≤ notional ∧
      Fixed.Fits ((w.read now).realizedLoss.toInt - pnl.toInt)
  | _ => True

/-- What closes at and after an instant lost, net. -/
def lossSince (closes : List (Time × D)) (start : Time) : Int :=
  ((closes.filter fun c => start ≤ c.1).map fun c => -c.2.toInt).sum

/-- Nothing is known of the group. -/
structure Fresh (w : Dealings) : Prop where
  state : w.engine.state w.key = none
  granted : w.granted = none
  opens : w.opens = []
  closes : w.closes = []

/-- The group is within the limits of the account that last opened, and its opens are spaced by
the cooldown of the later account. -/
structure Within (w : Dealings) : Prop where
  positions : 0 ≤ w.book.openPositions
  exposure : 0 ≤ w.book.exposure
  idle : w.opens = [] → w.book.openPositions = 0 ∧ w.book.exposure = 0
  last : ∀ t account l, w.opens.getLast? = some (t, account) → w.engine.limits account = some l →
    w.book.openPositions ≤ l.maxOpenPositions ∧
      (0 < l.maxTotalExposure → w.book.exposure ≤ l.maxTotalExposure)
  spaced : w.opens.IsChain fun x y => ∀ l, w.engine.limits y.2 = some l →
    l.cooldown.toInt ≤ y.1 - x.1

/-! ## The day's loss -/

theorem lossSince_append (closes : List (Time × D)) (c : Time × D) (start : Time)
    (h : start ≤ c.1) : lossSince (closes ++ [c]) start = lossSince closes start - c.2.toInt := by
  simp only [lossSince, List.filter_append, List.map_append, List.sum_append]
  have hlast : [c].filter (fun c => decide (start ≤ c.1)) = [c] := by simpa using h
  rw [hlast, List.map_singleton, List.sum_singleton]
  omega

theorem lossSince_of_before {closes : List (Time × D)} {start : Time}
    (h : ∀ c ∈ closes, c.1 < start) : lossSince closes start = 0 := by
  have hnone : closes.filter (fun c => decide (start ≤ c.1)) = [] := by
    rw [List.filter_eq_nil_iff]
    intro c hc
    simpa using h c hc
  rw [lossSince, hnone]
  rfl

/-- A state has the net loss of the closes since its day began. -/
structure Daily (st : AccountState) (closes : List (Time × D)) (now : Time) : Prop where
  day : ∃ t : Time, st.dayStart = t.startOfDay
  le : st.dayStart ≤ now.startOfDay
  closed : ∀ c ∈ closes, c.1.startOfDay ≤ st.dayStart
  loss : st.realizedLoss.toInt = lossSince closes st.dayStart

theorem Daily.fresh (now : Time) : Daily (.fresh now) [] now :=
  ⟨⟨now, rfl⟩, le_refl _, nofun, rfl⟩

/-- A state that is read has the net loss of the closes since midnight. -/
theorem Daily.rollDay {st : AccountState} {closes : List (Time × D)} {before now : Time}
    (h : Daily st closes before) (hle : before ≤ now) :
    Daily (st.rollDay now) closes now ∧ (st.rollDay now).dayStart = now.startOfDay := by
  obtain ⟨t, ht⟩ := h.day
  have hdays : st.dayStart ≤ now.startOfDay := h.le.trans (Time.startOfDay_mono hle)
  unfold AccountState.rollDay
  split
  · next hturned =>
    refine ⟨⟨⟨now, rfl⟩, le_refl _, fun c hc => (h.closed c hc).trans hdays, ?_⟩, rfl⟩
    -- every close was recorded on an earlier day
    have hbefore : ∀ c ∈ closes, c.1 < now.startOfDay := fun c hc =>
      Time.lt_startOfDay (lt_of_le_of_lt (h.closed c hc) hturned)
    change (0 : D).toInt = lossSince closes now.startOfDay
    rw [lossSince_of_before hbefore]
    rfl
  · next hsame =>
    have hday : st.dayStart = now.startOfDay := le_antisymm hdays (not_lt.mp hsame)
    exact ⟨⟨h.day, hdays, h.closed, h.loss⟩, hday⟩

/-- A close counts on the day it is recorded on. -/
theorem Daily.closed_now {st st' : AccountState} {closes : List (Time × D)} {now : Time} {pnl : D}
    (h : Daily st closes now) (hday : st.dayStart = now.startOfDay)
    (hstart : st'.dayStart = st.dayStart) (hloss : st'.realizedLoss = st.realizedLoss - pnl)
    (hfits : Fixed.Fits (st.realizedLoss.toInt - pnl.toInt)) :
    Daily st' (closes ++ [(now, pnl)]) now := by
  constructor
  · rw [hstart]
    exact h.day
  · rw [hstart]
    exact h.le
  · intro c hc
    rw [hstart]
    rcases List.mem_append.mp hc with hc | hc
    · exact h.closed c hc
    · rw [List.mem_singleton.mp hc, hday]
  · have hin : st.dayStart ≤ now := hday ▸ now.startOfDay_le
    rw [hstart, hloss, Fixed.toInt_sub_of_fits hfits, lossSince_append closes (now, pnl) _ hin,
      h.loss]

/-! ## What holds between calls -/

variable {w w' t u : Dealings} {act : Time × Call} {now : Time} {account : String} {req : Request}

/-- What a step needs, and what it leaves. -/
theorem Step.cases (hs : w.Step act w') : w.clock ≤ act.1 ∧
    (∀ account, act.2.account = some account → w.engine.stateKey account = w.key) ∧
    w.allows act.2 ∧ w' = w.after act.1 act.2 := by
  simp only [Step, next, Option.ite_none_right_eq_some, Option.some.injEq] at hs
  obtain ⟨⟨hle, hgroup, hallows⟩, hw'⟩ := hs
  exact ⟨hle, hgroup, hallows, hw'.symm⟩

/-- A recorded open is one the last call authorized. -/
theorem granted_of_allows {notional : D} (h : w.allows (.recordOpen account notional)) :
    ∃ m, w.granted = some (account, m) ∧ 0 ≤ notional ∧ notional ≤ m := by
  obtain ⟨⟨a, m⟩, hgranted, hfit⟩ := (Option.any_eq_true _ _).mp h
  obtain ⟨rfl, hnonneg, hm⟩ := of_decide_eq_true hfit
  exact ⟨m, hgranted, hnonneg, hm⟩

/-- The order that was authorized keeps its account within its limits once it is recorded. -/
structure Admitted (w : Dealings) (account : String) (m : D) : Prop where
  group : w.engine.stateKey account = w.key
  limits : ∀ l, w.engine.limits account = some l → w.book.openPositions < l.maxOpenPositions ∧
    (0 < l.maxTotalExposure →
      w.book.exposure.toInt + m.toInt ≤ l.maxTotalExposure.toInt) ∧
    ∀ last, w.book.lastOpen = some last → 0 < l.cooldown → l.cooldown.toInt ≤ w.clock - last

/-- The group is within its limits, and its state has what was recorded. -/
structure Sound (w : Dealings) : Prop extends w.Within where
  lastOpen : w.book.lastOpen = w.opens.getLast?.map Prod.fst
  clock : ∀ last, w.book.lastOpen = some last → last ≤ w.clock
  granted : ∀ account m, w.granted = some (account, m) → w.Admitted account m
  daily : ∀ st, w.engine.state w.key = some st → Daily st w.closes w.clock
  untouched : w.engine.state w.key = none → w.closes = []

theorem book_eq (h : w.engine.stateKey account = w.key) : w.engine.book account = w.book := by
  rw [Engine.book, h]
  rfl

theorem stateOf_eq (h : w.engine.stateKey account = w.key) :
    w.engine.stateOf now account = w.read now := by
  rw [Engine.stateOf, h]
  rfl

/-- The state that is read has the net loss since midnight. -/
theorem Sound.read_daily (h : w.Sound) (hle : w.clock ≤ now) :
    Daily (w.read now) w.closes now ∧ (w.read now).dayStart = now.startOfDay := by
  unfold read
  cases hst : w.engine.state w.key with
  | some st => exact (h.daily st hst).rollDay hle
  | none =>
    rw [Option.getD_none, h.untouched hst]
    exact (Daily.fresh now).rollDay (le_refl now)

theorem Fresh.sound (h : w.Fresh) : w.Sound := by
  have hbook : w.book = .flat := by rw [book, h.state, Option.map_none, Option.getD_none]
  constructor
  · constructor
    · rw [hbook]
      exact le_refl 0
    · rw [hbook]
      exact Int64.le_refl 0
    · intro _
      rw [hbook]
      exact ⟨rfl, rfl⟩
    · intro t account l hlast
      rw [h.opens] at hlast
      cases hlast
    · rw [h.opens]
      exact .nil
  · rw [hbook, h.opens]
    rfl
  · intro last hlast
    rw [hbook] at hlast
    cases hlast
  · intro account m hm
    rw [h.granted] at hm
    cases hm
  · intro st hst
    rw [h.state] at hst
    cases hst
  · exact fun _ => h.closes

/-- A call that records nothing leaves the group within its limits. -/
theorem Sound.quiet {engine : Engine} {granted : Option (String × D)} (h : w.Sound)
    (hle : w.clock ≤ now) (hlimits : engine.limits = w.engine.limits)
    (hstate : engine.state w.key = w.engine.state w.key ∨
      engine.state w.key = some (w.read now))
    (hgranted : ∀ account m, granted = some (account, m) →
      Admitted { w with engine, clock := now, granted } account m) :
    Sound { w with engine, clock := now, granted } := by
  have hbook : book { w with engine, clock := now, granted } = w.book := by
    unfold book
    rcases hstate with hstate | hstate
    · exact congrArg (fun st => (Option.map AccountState.book st).getD .flat) hstate
    · dsimp only
      rw [hstate, Option.map_some, Option.getD_some, read, AccountState.rollDay_book]
      cases w.engine.state w.key <;> rfl
  obtain ⟨hread, -⟩ := h.read_daily hle
  constructor
  · constructor
    · rw [hbook]
      exact h.positions
    · rw [hbook]
      exact h.exposure
    · rw [hbook]
      exact h.idle
    · rw [hbook]
      exact fun t account l hlast hl => h.last t account l hlast (hlimits ▸ hl)
    · exact h.spaced.imp fun x y hxy l hl => hxy l (hlimits ▸ hl)
  · rw [hbook]
    exact h.lastOpen
  · rw [hbook]
    exact fun last hlast => (h.clock last hlast).trans hle
  · exact hgranted
  · intro st hst
    rcases hstate with hstate | hstate
    · have hdaily := h.daily st (hstate.symm.trans hst)
      exact ⟨hdaily.day, hdaily.le.trans (Time.startOfDay_mono hle), hdaily.closed, hdaily.loss⟩
    · obtain rfl := Option.some.inj (hstate.symm.trans hst)
      exact hread
  · intro hnone
    rcases hstate with hstate | hstate
    · exact h.untouched (hstate.symm.trans hnone)
    · exact absurd (hstate.symm.trans hnone) (Option.some_ne_none _)

theorem read_book : (w.read now).book = w.book := by
  rw [read, AccountState.rollDay_book, book]
  cases w.engine.state w.key <;> rfl

/-- What an account of the group is authorized for keeps it within its limits. -/
theorem Sound.granted_admits (h : w.Sound) (hgroup : w.engine.stateKey req.account = w.key)
    (hexact : w.Exact (now, .authorize req)) (hopen : req.reduce = false)
    (hok : (w.engine.authorize now req).2 = none) :
    Admitted (w.after now (.authorize req)) req.account req.notional := by
  obtain ⟨limits, hlimits, -, hdenies⟩ := Engine.authorize_granted hopen hok
  obtain ⟨hengine, hbook⟩ := Engine.authorize_frame
    (Prod.mk.eta (p := w.engine.authorize now req)).symm
  have hgroup' : (w.after now (.authorize req)).engine.stateKey req.account =
      (w.after now (.authorize req)).key :=
    (Engine.stateKey_eq_of_group
      (congrArg (fun l => (l req.account).map Limits.group) hengine)).trans hgroup
  refine ⟨hgroup', fun l hl => ?_⟩
  obtain rfl : limits = l := Option.some.inj (hlimits.symm.trans (hengine ▸ hl))
  have hsame : (w.after now (.authorize req)).book = w.book := by
    rw [← book_eq hgroup', ← book_eq hgroup]
    exact hbook
  rw [stateOf_eq hgroup, AccountState.denies_eq_none, AccountState.cooling_eq_none] at hdenies
  obtain ⟨-, hcount, hexposure, hcooling⟩ := hdenies
  have hread : (w.read now).book = w.book := read_book
  rw [hsame]
  refine ⟨hread ▸ hcount, fun hpos => ?_, fun last hlast hpos => ?_⟩
  · have hsum : w.book.exposure + req.notional ≤ limits.maxTotalExposure := hread ▸ hexposure hpos
    have hnonneg : 0 ≤ w.book.exposure.toInt := Int64.le_iff_toInt_le.mp h.exposure
    have htop := hexact limits hlimits hpos
    have hlow := req.notional.le_toInt
    rwa [Int64.le_iff_toInt_le, Fixed.toInt_add_of_fits ⟨by omega, htop⟩] at hsum
  · rw [← hread] at hlast
    exact Time.le_of_le_sub hpos (hcooling last hlast hpos)

/-- Recording an authorized open keeps the group within its limits. -/
theorem Sound.recordOpen {notional : D} (h : w.Sound) (hle : w.clock ≤ now)
    (hgroup : w.engine.stateKey account = w.key)
    (hallows : w.allows (.recordOpen account notional))
    (hexact : w.Exact (now, .recordOpen account notional)) :
    Sound (w.after now (.recordOpen account notional)) := by
  obtain ⟨m, hgranted, hnonneg, hm⟩ := granted_of_allows hallows
  obtain ⟨-, hlimits⟩ := h.granted account m hgranted
  obtain ⟨hread, hday⟩ := h.read_daily hle
  have hbook : (w.after now (.recordOpen account notional)).book =
      ⟨some now, w.book.openPositions + 1, w.book.exposure + notional⟩ := by
    rw [← book_eq hgroup, ← Engine.recordOpen_book]
    exact (book_eq (w := w.after now (.recordOpen account notional)) hgroup).symm
  have hstate : (w.after now (.recordOpen account notional)).engine.state w.key =
      some { w.read now with
        lastOpen := some now
        openPositions := (w.read now).openPositions + 1
        exposure := (w.read now).exposure + notional } := by
    rw [← stateOf_eq hgroup, ← hgroup]
    exact Function.update_self _ _ _
  have hn : 0 ≤ notional.toInt := Int64.le_iff_toInt_le.mp hnonneg
  have he : 0 ≤ w.book.exposure.toInt := Int64.le_iff_toInt_le.mp h.exposure
  have hsum : (w.book.exposure + notional).toInt = w.book.exposure.toInt + notional.toInt :=
    Fixed.toInt_add_of_fits ⟨by omega, hexact⟩
  have hpos := h.positions
  constructor
  · constructor
    · rw [hbook]
      dsimp only
      omega
    · rw [hbook, Int64.le_iff_toInt_le, hsum, Int64.toInt_zero]
      omega
    · exact fun hidle => absurd hidle (List.append_ne_nil_of_right_ne_nil _ (List.cons_ne_nil _ _))
    · intro t a l hlast hl
      change (w.opens ++ [(now, account)]).getLast? = _ at hlast
      rw [List.getLast?_concat, Option.some.injEq, Prod.mk.injEq] at hlast
      obtain ⟨-, rfl⟩ := hlast
      obtain ⟨hcount, hexposure, -⟩ := hlimits l hl
      rw [hbook]
      refine ⟨hcount, fun htop => ?_⟩
      have hm' : notional.toInt ≤ m.toInt := Int64.le_iff_toInt_le.mp hm
      have hcap := hexposure htop
      rw [Int64.le_iff_toInt_le, hsum]
      omega
    · refine List.IsChain.append h.spaced (.singleton _) ?_
      intro x hx y hy l hl
      obtain rfl := Option.some.inj hy
      have hlast : w.book.lastOpen = some x.1 := by
        rw [h.lastOpen, Option.mem_def.mp hx]
        rfl
      have hpast : x.1 ≤ w.clock := h.clock _ hlast
      have hwait := (hlimits l hl).2.2 _ hlast
      by_cases hcool : 0 < l.cooldown
      · have hwaited : ∀ a b c d : Int, d ≤ b - c → b ≤ a → d ≤ a - c := by omega
        exact hwaited _ _ _ _ (hwait hcool) hle
      · have hneg : l.cooldown.toInt ≤ 0 := Int64.le_iff_toInt_le.mp (Int64.not_lt.mp hcool)
        have hordered : ∀ a b c d : Int, d ≤ 0 → b ≤ a → c ≤ b → d ≤ a - c := by omega
        exact hordered _ _ _ _ hneg hle hpast
  · rw [hbook]
    change some now = (w.opens ++ [(now, account)]).getLast?.map Prod.fst
    rw [List.getLast?_concat]
    rfl
  · rw [hbook]
    rintro last ⟨⟩
    exact le_refl now
  · exact fun _ _ hm => nomatch hm
  · intro st hst
    obtain rfl := Option.some.inj (hstate.symm.trans hst)
    exact ⟨hread.day, hread.le, hread.closed, hread.loss⟩
  · exact fun hnone => absurd (hstate.symm.trans hnone) (Option.some_ne_none _)

/-- What a close leaves of an exposure is neither negative nor more than there was. -/
theorem clamped_le {exposure notional : D} {p : Prop} [Decidable p] (he : 0 ≤ exposure)
    (hn : 0 ≤ notional) :
    0 ≤ (if exposure - notional < 0 ∨ p then 0 else exposure - notional) ∧
      (if exposure - notional < 0 ∨ p then 0 else exposure - notional) ≤ exposure := by
  split
  · exact ⟨Int64.le_refl 0, he⟩
  · next hleft =>
    have he' : 0 ≤ exposure.toInt := Int64.le_iff_toInt_le.mp he
    have hn' : 0 ≤ notional.toInt := Int64.le_iff_toInt_le.mp hn
    have htop := exposure.toInt_lt
    have htop' := notional.toInt_lt
    refine ⟨Int64.not_lt.mp fun hneg => hleft (.inl hneg), ?_⟩
    rw [Int64.le_iff_toInt_le, Fixed.toInt_sub_of_fits ⟨by omega, by omega⟩]
    omega

/-- Recording a close counts its result on the day, and leaves no more open than before. -/
theorem Sound.recordClose {notional pnl : D} (h : w.Sound) (hle : w.clock ≤ now)
    (hgroup : w.engine.stateKey account = w.key)
    (hexact : w.Exact (now, .recordClose account notional pnl)) :
    Sound (w.after now (.recordClose account notional pnl)) := by
  obtain ⟨hnonneg, hfits⟩ := hexact
  obtain ⟨hread, hday⟩ := h.read_daily hle
  have hbook : (w.after now (.recordClose account notional pnl)).book =
      let left := if 0 < w.book.openPositions then w.book.openPositions - 1
        else w.book.openPositions
      ⟨w.book.lastOpen, left,
        if w.book.exposure - notional < 0 ∨ left = 0 then 0 else w.book.exposure - notional⟩ := by
    rw [← book_eq hgroup, ← Engine.recordClose_book]
    exact (book_eq (w := w.after now (.recordClose account notional pnl)) hgroup).symm
  obtain ⟨st, hstate, hstart, hloss⟩ : ∃ st,
      (w.after now (.recordClose account notional pnl)).engine.state w.key = some st ∧
      st.dayStart = (w.read now).dayStart ∧
      st.realizedLoss = (w.read now).realizedLoss - pnl := by
    rw [← stateOf_eq hgroup, ← hgroup]
    exact ⟨_, Function.update_self _ _ _, rfl, rfl⟩
  have hpos := h.positions
  have hcount : 0 ≤ (w.after now (.recordClose account notional pnl)).book.openPositions ∧
      (w.after now (.recordClose account notional pnl)).book.openPositions ≤
        w.book.openPositions := by
    rw [hbook]
    dsimp only
    split <;> omega
  have hexposure : 0 ≤ (w.after now (.recordClose account notional pnl)).book.exposure ∧
      (w.after now (.recordClose account notional pnl)).book.exposure ≤ w.book.exposure := by
    rw [hbook]
    exact clamped_le h.exposure hnonneg
  constructor
  · constructor
    · exact hcount.1
    · exact hexposure.1
    · intro hidle
      obtain ⟨hidlecount, hidlexposure⟩ := h.idle hidle
      refine ⟨by omega, Int64.le_antisymm ?_ hexposure.1⟩
      exact hidlexposure ▸ hexposure.2
    · intro t a l hlast hl
      obtain ⟨hmax, hcap⟩ := h.last t a l hlast hl
      exact ⟨hcount.2.trans hmax, fun hp => Int64.le_trans hexposure.2 (hcap hp)⟩
    · exact h.spaced
  · rw [hbook]
    exact h.lastOpen
  · rw [hbook]
    exact fun last hlast => (h.clock last hlast).trans hle
  · exact fun _ _ hm => nomatch hm
  · intro st' hst'
    obtain rfl := Option.some.inj (hstate.symm.trans hst')
    exact hread.closed_now hday hstart hloss hfits
  · exact fun hnone => absurd (hstate.symm.trans hnone) (Option.some_ne_none _)

/-- An exact call keeps the group within its limits. -/
theorem Sound.step (h : w.Sound) (hexact : w.Exact act) (hs : w.Step act w') : w'.Sound := by
  obtain ⟨now, call⟩ := act
  obtain ⟨hle, hgroup, hallows, rfl⟩ := hs.cases
  cases call with
  | authorize req =>
    have hkey := hgroup req.account rfl
    have hread : w.engine.stateOf now req.account = w.read now := stateOf_eq hkey
    refine h.quiet hle ?_ ?_ ?_
    · exact (Engine.authorize_frame (Prod.mk.eta (p := w.engine.authorize now req)).symm).1
    · unfold Engine.authorize
      repeat' split
      all_goals first
        | exact .inl rfl
        | exact .inr (by rw [← hread, ← hkey]; exact Function.update_self _ _ _)
    · intro account m hm
      by_cases hok : (w.engine.authorize now req).2 = none ∧ req.reduce = false
      · rw [if_pos hok] at hm
        obtain ⟨rfl, rfl⟩ := Prod.mk.inj (Option.some.inj hm)
        have hadmits := h.granted_admits hkey hexact hok.2 hok.1
        exact hadmits
      · rw [if_neg hok] at hm
        cases hm
  | recordOpen account notional => exact h.recordOpen hle (hgroup account rfl) hallows hexact
  | recordClose account notional pnl => exact h.recordClose hle (hgroup account rfl) hexact
  | snapshot account =>
    have hkey := hgroup account rfl
    refine h.quiet hle rfl (.inr ?_) fun _ _ hm => nomatch hm
    rw [← stateOf_eq hkey, ← hkey]
    exact Function.update_self _ _ _
  | kill reason => exact h.quiet hle rfl (.inl rfl) fun _ _ hm => nomatch hm
  | revive => exact h.quiet hle rfl (.inl rfl) fun _ _ hm => nomatch hm

/-- In every trace of exact calls from a fresh state, the group is within the limits of the account
that last opened after every call, and an opening order is authorized only while the kill switch is
off and the closes since midnight have lost less than the account's daily loss. -/
theorem trace_within_limits {as : List (Time × Call)} (h₀ : w.Fresh)
    (h : Run Step Exact w as t) : t.Within ∧ ∀ now req u, t.Step (now, .authorize req) u →
      req.reduce = false → (t.engine.authorize now req).2 = none →
      t.engine.killSwitch = false ∧ ∃ l, t.engine.limits req.account = some l ∧
        lossSince t.closes now.startOfDay < l.dailyLoss.toInt := by
  have ht : t.Sound := h.invariant h₀.sound fun _ _ _ hi hok hs => hi.step hok hs
  refine ⟨ht.toWithin, fun now req u hs hopen hok => ?_⟩
  obtain ⟨hle, hgroup, -, -⟩ : t.clock ≤ now ∧ _ := hs.cases
  obtain ⟨hread, hday⟩ := ht.read_daily hle
  obtain ⟨l, hl, -, hdenies⟩ := Engine.authorize_granted hopen hok
  rw [stateOf_eq (hgroup req.account rfl), AccountState.denies_eq_none] at hdenies
  refine ⟨Engine.killSwitch_of_granted hopen hok, l, hl, ?_⟩
  have hloss := Int64.lt_iff_toInt_lt.mp hdenies.1
  have hnet := (t.read now).realizedLoss_le
  rw [← hday, ← hread.loss]
  omega

end Dealings

/-! ## Amounts that do not fit -/

/-- Limits that cap three positions at an exposure. -/
def capped (top : D) : Limits where
  allowedSymbols := ["BTC"]
  maxNotional := 4611686018427387904
  minNotional := 0
  maxLeverage := Fixed.scale
  maxTotalExposure := top
  maxOpenPositions := 3
  dailyLoss := 100
  cooldown := Duration.second
  group := ""

/-- An account nothing is known of. -/
def unopened (top : D) : Dealings where
  engine := { Engine.new with
    limits := Function.update (fun _ => none) "0xa" (some (capped top)) }
  key := "0xa"
  clock := 0
  granted := none
  opens := []
  closes := []

theorem unopened_fresh (top : D) : (unopened top).Fresh := ⟨rfl, rfl, rfl, rfl⟩

/-- An opening order of the account. -/
def ordering (notional : D) : Call := .authorize ⟨"0xa", "BTC", false, notional, Fixed.scale⟩

/-- Two orders, the second after the cooldown. -/
def twoOrders (notional : D) : List (Time × Call) :=
  [(0, ordering notional), (1, .recordOpen "0xa" notional), (2000000000, ordering notional),
    (2000000000, .recordOpen "0xa" notional)]

/-- An order that is authorized and recorded, and one that is authorized after the cooldown. -/
theorem trace_within_limits_order : ∃ t, Run Dealings.Step Dealings.Exact (unopened 20)
    [(0, ordering 10), (1, .recordOpen "0xa" 10)] t ∧ t.Within ∧ t.book = ⟨some 1, 1, 10⟩ ∧
    t.engine.killSwitch = false ∧
    ∃ l, t.engine.limits "0xa" = some l ∧
      Dealings.lossSince t.closes (Time.startOfDay 2000000000) < l.dailyLoss.toInt := by
  have hfirst : (unopened 20).Exact (0, ordering 10) := fun _ _ _ => by decide
  have hsecond : Dealings.Exact ((unopened 20).after 0 (ordering 10)) (1, .recordOpen "0xa" 10) := by
    change _ < _
    decide
  have h : Run Dealings.Step Dealings.Exact (unopened 20)
      [(0, ordering 10), (1, .recordOpen "0xa" 10)] _ :=
    (Run.nil.snoc hfirst (if_pos (by decide))).snoc hsecond (if_pos (by decide))
  obtain ⟨hwithin, hgranted⟩ := Dealings.trace_within_limits (unopened_fresh 20) h
  exact ⟨_, h, hwithin, by decide, hgranted 2000000000 ⟨"0xa", "BTC", false, 10, Fixed.scale⟩ _
    (if_pos (by decide)) rfl (by decide)⟩

/-- The group after a close with a negative notional. -/
def closedNegative : Dealings :=
  (exec Dealings.next (unopened 20)
    (twoOrders 10 ++ [(2000000000, .recordClose "0xa" (-15) 0)])).get (by decide)

/-- The group after two notionals that do not fit together. -/
def openedHuge : Dealings :=
  (exec Dealings.next (unopened Int64.maxValue) (twoOrders 4611686018427387904)).get (by decide)

/-- The group after a loss that does not fit. -/
def lostHuge : Dealings :=
  (exec Dealings.next (unopened 20) [(0, .recordClose "0xa" 0 Int64.minValue)]).get (by decide)

/-- A close with a negative notional lifts the exposure above the limit; two notionals that do not
fit together pass it, and the exposure is negative; and a loss that does not fit is a gain. -/
theorem amounts_wrap :
    (Run Dealings.Step Always (unopened 20)
        (twoOrders 10 ++ [(2000000000, .recordClose "0xa" (-15) 0)]) closedNegative ∧
      20 < closedNegative.book.exposure) ∧
    (Run Dealings.Step Always (unopened Int64.maxValue) (twoOrders 4611686018427387904)
        openedHuge ∧
      openedHuge.book.exposure < 0) ∧
    Run Dealings.Step Always (unopened 20) [(0, .recordClose "0xa" 0 Int64.minValue)] lostHuge ∧
    (lostHuge.engine.authorize 0 ⟨"0xa", "BTC", false, 10, Fixed.scale⟩).2 = none ∧
    (capped 20).dailyLoss.toInt ≤ Dealings.lossSince lostHuge.closes (Time.startOfDay 0) := by
  refine ⟨⟨?_, by decide⟩, ⟨?_, by decide⟩, ?_, by decide, by decide⟩
  · exact Run.of_exec (Option.some_get _).symm fun _ _ _ => trivial
  · exact Run.of_exec (Option.some_get _).symm fun _ _ _ => trivial
  · exact Run.of_exec (Option.some_get _).symm fun _ _ _ => trivial

end SuperAgent.Policy
