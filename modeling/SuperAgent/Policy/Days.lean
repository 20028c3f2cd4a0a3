import SuperAgent.Policy.Traces

/-!
# The day's accounts

The engine's process over days and restarts: every record of an open, of a
close or of the venue's positions is saved, and a process that starts again
restores the rows saved last, which may be days old. As long as no realised loss
leaves 64 bits, an account's daily loss is what its group's closes since midnight
add up to, whichever call first noticed the new day.
-/

namespace SuperAgent.Policy

open Fixed (D)
open Dealings (lossSince Daily)

/-- What happens to the engine's process. -/
inductive Event
  | call (c : Call)
  | reconcile (account : String) (positions : List Venue.Position)
  /-- The process starts again, with the same limits, and restores what was saved. -/
  | restart

/-- The engine with the store behind it. -/
structure Process where
  engine : Engine
  clock : Time
  /-- The rows of the accounts' states. -/
  saved : String → Option AccountState
  /-- The row of the kill switch. -/
  savedKill : Bool × String
  /-- When positions were closed, of which account, and their results. -/
  closes : List (Time × String × D)

/-- Load persisted state; a day that has rolled over since is reset. -/
def Engine.restore (e : Engine) (now : Time) (states : String → Option AccountState)
    (killed : Bool) (note : String) : Engine :=
  { e with
    killSwitch := killed
    killReason := note
    state := fun key => match states key with
      | some a => some (a.rollDay now)
      | none => e.state key }

namespace Process

variable (p : Process)

/-- Save the state of an account. -/
def persistAccount (account : String) : Process :=
  let key := p.engine.stateKey account
  { p with saved := Function.update p.saved key (p.engine.state key) }

/-- Save the kill switch. -/
def persistKill : Process := { p with savedKill := (p.engine.killSwitch, p.engine.killReason) }

/-- The process after an event at a time. -/
def after (now : Time) : Event → Process
  | .call (.authorize req) =>
    { p with engine := (p.engine.authorize now req).1, clock := now }
  | .call (.recordOpen account notional) =>
    persistAccount
      { p with engine := p.engine.recordOpen now account notional, clock := now } account
  | .call (.recordClose account notional pnl) =>
    persistAccount
      { p with
        engine := p.engine.recordClose now account notional pnl
        clock := now
        closes := p.closes ++ [(now, account, pnl)] } account
  | .call (.snapshot account) =>
    { p with engine := (p.engine.snapshot now account).1, clock := now }
  | .call (.kill reason) => persistKill { p with engine := p.engine.kill reason, clock := now }
  | .call .revive => persistKill { p with engine := p.engine.revive, clock := now }
  | .reconcile account positions =>
    match p.engine.reconcile now account positions with
    | some engine => persistAccount { p with engine, clock := now } account
    -- the panic comes after the day was rolled over, and before anything is replaced
    | none => { p with engine := (p.engine.snapshot now account).1, clock := now }
  | .restart =>
    let engine := { Engine.new with limits := p.engine.limits }
    { p with
      engine := engine.restore now p.saved p.savedKill.1 p.savedKill.2
      clock := now }

/-- The process after an event, the clock never going back. -/
def next (act : Time × Event) : Option Process :=
  if p.clock ≤ act.1 then some (p.after act.1 act.2) else none

/-- One step. -/
abbrev Step (p : Process) (act : Time × Event) (p' : Process) : Prop := p.next act = some p'

/-- The results of a group's closes, by the key its state lives under. -/
def closesAt (key : String) : List (Time × D) :=
  (p.closes.filter fun c => p.engine.stateKey c.2.1 = key).map fun c => (c.1, c.2.2)

/-- The results of the closes of an account's group. -/
def closesOf (account : String) : List (Time × D) := p.closesAt (p.engine.stateKey account)

/-- Nothing is known of any account. -/
structure Fresh : Prop where
  state : ∀ key, p.engine.state key = none
  saved : ∀ key, p.saved key = none
  closes : p.closes = []

/-- No realised loss leaves 64 bits. -/
def LossFits : Time × Event → Prop
  | (now, .call (.recordClose account _ pnl)) =>
    Fixed.Fits ((p.engine.stateOf now account).realizedLoss.toInt - pnl.toInt)
  | _ => True

/-- The notional of each of the venue's positions whose product fits. -/
def notionals (positions : List Venue.Position) : List D :=
  positions.filterMap fun x => Fixed.mul x.entryPrice x.size

/-- No notional is negative, and no exposure leaves 64 bits. -/
def ExposureFits : Time × Event → Prop
  | (_, .call (.recordOpen account notional)) =>
    0 ≤ notional ∧ (p.engine.book account).exposure.toInt + notional.toInt < 2 ^ 63
  | (_, .call (.recordClose _ notional _)) => 0 ≤ notional
  | (_, .reconcile _ positions) =>
    (∀ n ∈ notionals positions, 0 ≤ n) ∧ ((notionals positions).map Int64.toInt).sum < 2 ^ 63
  | _ => True

instance (act : Time × Event) : Decidable (p.LossFits act) := by
  unfold LossFits
  split <;> infer_instance

instance (act : Time × Event) : Decidable (p.ExposureFits act) := by
  unfold ExposureFits
  split <;> infer_instance

end Process

/-! ## What an event records -/

namespace AccountState

/-- The state with one position more. -/
def opened (st : AccountState) (now : Time) (notional : D) : AccountState :=
  { st with
    lastOpen := some now
    openPositions := st.openPositions + 1
    exposure := st.exposure + notional }

/-- The state with one position less, and its result. -/
def closed (st : AccountState) (notional pnl : D) : AccountState :=
  let open' := if 0 < st.openPositions then st.openPositions - 1 else st.openPositions
  let left := st.exposure - notional
  { st with
    openPositions := open'
    exposure := if left < 0 ∨ open' = 0 then 0 else left
    realizedLoss := st.realizedLoss - pnl }

/-- The state with the venue's positions. -/
def reconciled (st : AccountState) (count : Int) (exposure : D) : AccountState :=
  { st with openPositions := count, exposure := exposure }

end AccountState

/-- What an event makes of the state it reads, when it records something of it. -/
inductive Records (st : AccountState) (now : Time) : Event → String → AccountState → Prop
  | opened {account notional} :
      Records st now (.call (.recordOpen account notional)) account (st.opened now notional)
  | closed {account notional pnl} :
      Records st now (.call (.recordClose account notional pnl)) account (st.closed notional pnl)
  | reconciled {account positions exposure} (h : Engine.exposureOf positions = some exposure) :
      Records st now (.reconcile account positions) account
        (st.reconciled positions.length exposure)

/-- The close an event is. -/
def Event.closing (now : Time) : Event → List (Time × String × D)
  | .call (.recordClose account _ pnl) => [(now, account, pnl)]
  | _ => []

/-- What an event records has the net loss since midnight, its own result included. -/
theorem Records.daily {st st' : AccountState} {now : Time} {event : Event} {account : String}
    {closes : List (Time × D)} (hrec : Records st now event account st') (hread : Daily st closes now)
    (hday : st.dayStart = now.startOfDay)
    (hfits : ∀ notional pnl, event = .call (.recordClose account notional pnl) →
      Fixed.Fits (st.realizedLoss.toInt - pnl.toInt)) :
    Daily st' (closes ++ (event.closing now).map fun c => (c.1, c.2.2)) now := by
  have hnone : closes ++ [] = closes := List.append_nil _
  cases hrec with
  | opened =>
    change Daily _ (closes ++ []) now
    rw [hnone]
    exact ⟨hread.day, hread.le, hread.closed, hread.loss⟩
  | closed => exact hread.closed_now hday rfl rfl (hfits _ _ rfl)
  | reconciled =>
    change Daily _ (closes ++ []) now
    rw [hnone]
    exact ⟨hread.day, hread.le, hread.closed, hread.loss⟩

/-- Only closes of the account itself are recorded with it. -/
theorem Records.closing {st st' : AccountState} {now : Time} {event : Event} {account : String}
    (hrec : Records st now event account st') :
    ∀ c ∈ event.closing now, c.2.1 = account := by
  cases hrec with
  | opened => exact nofun
  | closed =>
    intro c hc
    rw [List.mem_singleton.mp hc]
  | reconciled => exact nofun

namespace Process

variable {p p' q : Process} {act : Time × Event} {now : Time} {event : Event} {account key : String}

/-- What an event does to the states and to the rows: nothing, to roll a state over without saving
it, to record and save one, or to restore all of them. -/
inductive Effect (p : Process) (now : Time) (event : Event) (p' : Process) : Prop
  | still (quiet : event.closing now = []) (state : p'.engine.state = p.engine.state)
      (saved : p'.saved = p.saved)
  | reads (account : String) (quiet : event.closing now = [])
      (state : p'.engine.state = Function.update p.engine.state (p.engine.stateKey account)
        (some (p.engine.stateOf now account)))
      (saved : p'.saved = p.saved)
  | records (account : String) (st : AccountState)
      (recorded : Records (p.engine.stateOf now account) now event account st)
      (state : p'.engine.state =
        Function.update p.engine.state (p.engine.stateKey account) (some st))
      (saved : p'.saved = Function.update p.saved (p.engine.stateKey account) (some st))
  | restores (quiet : event.closing now = [])
      (state : ∀ key, p'.engine.state key = (p.saved key).map fun st => st.rollDay now)
      (saved : p'.saved = p.saved)

/-- A state that was put is what is saved of its account. -/
theorem saved_persistAccount (p : Process) (engine : Engine) (account : String)
    (st : AccountState) :
    (persistAccount { p with engine := engine.putState account st } account).saved =
      Function.update p.saved (engine.stateKey account) (some st) := by
  change Function.update p.saved (engine.stateKey account)
    (Function.update engine.state (engine.stateKey account) (some st) (engine.stateKey account)) = _
  rw [Function.update_self]

/-- A step keeps the limits, notes a close and has one of four effects. -/
theorem Step.effect (hs : p.Step act p') : p.clock ≤ act.1 ∧ p'.clock = act.1 ∧
    p'.engine.limits = p.engine.limits ∧ p'.closes = p.closes ++ act.2.closing act.1 ∧
    p.Effect act.1 act.2 p' := by
  obtain ⟨now, event⟩ := act
  simp only [Step, next, Option.ite_none_right_eq_some, Option.some.injEq] at hs
  obtain ⟨hle, rfl⟩ := hs
  refine ⟨hle, ?_⟩
  have hquiet : p.closes = p.closes ++ [] := (List.append_nil _).symm
  cases event with
  | call c =>
    cases c with
    | authorize req =>
      refine ⟨rfl, ?_, hquiet, ?_⟩
      · exact (Engine.authorize_frame (Prod.mk.eta (p := p.engine.authorize now req)).symm).1
      · change Effect p now _ { p with engine := (p.engine.authorize now req).1, clock := now }
        unfold Engine.authorize
        repeat' split
        all_goals first
          | exact .still rfl rfl rfl
          | exact .reads req.account rfl rfl rfl
    | recordOpen account notional =>
      exact ⟨rfl, rfl, hquiet, .records account _ .opened rfl (saved_persistAccount ..)⟩
    | recordClose account notional pnl =>
      exact ⟨rfl, rfl, rfl, .records account _ .closed rfl (saved_persistAccount ..)⟩
    | snapshot account => exact ⟨rfl, rfl, hquiet, .reads account rfl rfl rfl⟩
    | kill reason => exact ⟨rfl, rfl, hquiet, .still rfl rfl rfl⟩
    | revive => exact ⟨rfl, rfl, hquiet, .still rfl rfl rfl⟩
  | reconcile account positions =>
    cases hexposure : Engine.exposureOf positions with
    | none =>
      have hnone : p.engine.reconcile now account positions = none := by
        rw [Engine.reconcile, hexposure]
        rfl
      have hafter : p.after now (.reconcile account positions) =
          { p with engine := (p.engine.snapshot now account).1, clock := now } := by
        simp only [after, hnone]
      rw [hafter]
      exact ⟨rfl, rfl, hquiet, .reads account rfl rfl rfl⟩
    | some exposure =>
      have hsome : p.engine.reconcile now account positions =
          some (p.engine.putState account
            ((p.engine.stateOf now account).reconciled positions.length exposure)) := by
        rw [Engine.reconcile, hexposure]
        rfl
      have hafter : p.after now (.reconcile account positions) =
          persistAccount
            { p with
              engine := p.engine.putState account
                ((p.engine.stateOf now account).reconciled positions.length exposure)
              clock := now } account := by
        simp only [after, hsome]
      rw [hafter]
      exact ⟨rfl, rfl, hquiet, .records account _ (.reconciled hexposure) rfl
        (saved_persistAccount ..)⟩
  | restart =>
    refine ⟨rfl, rfl, hquiet, .restores rfl (fun key => ?_) rfl⟩
    change (match p.saved key with | some a => some (a.rollDay now) | none => none) = _
    cases p.saved key with
    | none => rfl
    | some st => rfl

/-! ## The day's loss -/

/-- A row has the net loss of its group's closes since its day began, and a group without a row
has closed nothing. -/
def Kept (closes : List (Time × D)) (clock : Time) (row : Option AccountState) : Prop :=
  row.elim (closes = []) fun st => Daily st closes clock

theorem Kept.later {closes : List (Time × D)} {before : Time} {row : Option AccountState}
    (h : Kept closes before row) (hle : before ≤ now) : Kept closes now row := by
  cases row with
  | none => exact h
  | some st => exact ⟨h.day, h.le.trans (Time.startOfDay_mono hle), h.closed, h.loss⟩

/-- A state that is read, or begun, has the net loss since midnight. -/
theorem Kept.read {closes : List (Time × D)} {before : Time} {row : Option AccountState}
    (h : Kept closes before row) (hle : before ≤ now) :
    Daily ((row.getD (.fresh now)).rollDay now) closes now ∧
      ((row.getD (.fresh now)).rollDay now).dayStart = now.startOfDay := by
  cases row with
  | none =>
    obtain rfl : closes = [] := h
    exact (Daily.fresh now).rollDay (le_refl now)
  | some st => exact Daily.rollDay h hle

/-- Every group's state and row have its net loss. -/
structure Accounted (p : Process) : Prop where
  state : ∀ key, Kept (p.closesAt key) p.clock (p.engine.state key)
  saved : ∀ key, Kept (p.closesAt key) p.clock (p.saved key)

theorem Fresh.accounted (h : p.Fresh) : p.Accounted := by
  have hnone : ∀ key, p.closesAt key = [] := by
    intro key
    rw [closesAt, h.closes]
    rfl
  constructor
  · intro key
    rw [h.state key]
    exact hnone key
  · intro key
    rw [h.saved key]
    exact hnone key

/-- A group's closes are those before and the one an event is, when it is the group's. -/
theorem closesAt_eq (hlimits : p'.engine.limits = p.engine.limits)
    (hcloses : p'.closes = p.closes ++ event.closing now) :
    p'.closesAt key = p.closesAt key ++ ((event.closing now).filter fun c =>
      p.engine.stateKey c.2.1 = key).map fun c => (c.1, c.2.2) := by
  have hkey : ∀ account, p'.engine.stateKey account = p.engine.stateKey account := fun account =>
    Engine.stateKey_eq_of_group (congrArg (fun l => (l account).map Limits.group) hlimits)
  simp only [closesAt, hkey, hcloses, List.filter_append, List.map_append]

/-- A row that is written has its own group's closes, the others keep theirs. -/
theorem kept_update {before after : String → List (Time × D)} {clock : Time}
    {rows : String → Option AccountState} {st : AccountState}
    (h : ∀ k, Kept (before k) clock (rows k)) (hle : clock ≤ now)
    (hother : ∀ k, k ≠ key → after k = before k) (hst : Daily st (after key) now) (k : String) :
    Kept (after k) now (Function.update rows key (some st) k) := by
  by_cases hk : k = key
  · rw [hk, Function.update_self]
    exact hst
  · rw [Function.update_of_ne hk, hother k hk]
    exact (h k).later hle

/-- A step whose realised loss fits keeps every group's net loss. -/
theorem Accounted.step (h : p.Accounted) (hok : p.LossFits act) (hs : p.Step act p') :
    p'.Accounted := by
  obtain ⟨hle, hclock, hlimits, hcloses, heffect⟩ := hs.effect
  obtain ⟨now, event⟩ := act
  have hat : ∀ key, p'.closesAt key = _ := fun _ => closesAt_eq hlimits hcloses
  have hsame : event.closing now = [] → ∀ key, p'.closesAt key = p.closesAt key := by
    intro hquiet key
    rw [hat, hquiet]
    exact List.append_nil _
  cases heffect with
  | still hquiet hstate hsaved =>
    constructor
    · intro key
      rw [hsame hquiet, hstate, hclock]
      exact (h.state key).later hle
    · intro key
      rw [hsame hquiet, hsaved, hclock]
      exact (h.saved key).later hle
  | reads account hquiet hstate hsaved =>
    obtain ⟨hread, -⟩ := (h.state (p.engine.stateKey account)).read hle
    constructor
    · rw [hstate, hclock]
      refine kept_update h.state hle (fun key _ => hsame hquiet key) ?_
      rw [hsame hquiet]
      exact hread
    · intro key
      rw [hsame hquiet, hsaved, hclock]
      exact (h.saved key).later hle
  | records account st hrec hstate hsaved =>
    obtain ⟨hread, hday⟩ := (h.state (p.engine.stateKey account)).read hle
    have hother : ∀ key, key ≠ p.engine.stateKey account → p'.closesAt key = p.closesAt key := by
      intro key hne
      have hnone : (event.closing now).filter (fun c => p.engine.stateKey c.2.1 = key) = [] := by
        rw [List.filter_eq_nil_iff]
        intro c hc
        rw [hrec.closing c hc]
        simpa using hne.symm
      rw [hat, hnone]
      exact List.append_nil _
    have hown : Daily st (p'.closesAt (p.engine.stateKey account)) now := by
      have hall : (event.closing now).filter
          (fun c => p.engine.stateKey c.2.1 = p.engine.stateKey account) = event.closing now := by
        rw [List.filter_eq_self]
        intro c hc
        rw [hrec.closing c hc]
        exact decide_eq_true rfl
      rw [hat, hall]
      refine hrec.daily hread hday fun notional pnl hclose => ?_
      have hevent : event = .call (.recordClose account notional pnl) := hclose
      rw [hevent] at hok
      exact hok
    constructor
    · rw [hstate, hclock]
      exact kept_update h.state hle hother hown
    · rw [hsaved, hclock]
      exact kept_update h.saved hle hother hown
  | restores hquiet hstate hsaved =>
    constructor
    · intro key
      rw [hsame hquiet, hstate, hclock]
      have hrow := h.saved key
      cases hkey : p.saved key with
      | none =>
        rw [hkey] at hrow
        exact hrow
      | some st =>
        rw [hkey] at hrow
        exact (Daily.rollDay hrow hle).1
    · intro key
      rw [hsame hquiet, hsaved, hclock]
      exact (h.saved key).later hle

/-- The loss a snapshot reports is the net loss of the group's closes since midnight, if it is
one. -/
theorem Accounted.dailyLoss (h : p.Accounted) (hle : p.clock ≤ now) (account : String) :
    (p.engine.snapshot now account).2.dailyLoss.toInt =
      max 0 (lossSince (p.closesOf account) now.startOfDay) := by
  obtain ⟨hread, hday⟩ := (h.state (p.engine.stateKey account)).read hle
  have hnet : ∀ st : AccountState, st.dailyLoss.toInt = max 0 st.realizedLoss.toInt := by
    intro st
    unfold AccountState.dailyLoss
    split
    · next hneg =>
      have hlt := Int64.lt_iff_toInt_lt.mp hneg
      rw [Int64.toInt_zero] at hlt
      exact (max_eq_left hlt.le).symm
    · next hpos =>
      have hle := Int64.le_iff_toInt_le.mp (Int64.not_lt.mp hpos)
      exact (max_eq_right hle).symm
  rw [closesOf, ← hday, ← hread.loss]
  exact hnet _

/-! ## The exposure -/

/-- A state counts its positions, and without any has no exposure. -/
structure Flat (st : AccountState) : Prop where
  positions : 0 ≤ st.openPositions
  exposure : 0 ≤ st.exposure
  idle : st.openPositions = 0 → st.exposure = 0

theorem Flat.fresh (now : Time) : Flat (.fresh now) := ⟨le_refl 0, Int64.le_refl 0, fun _ => rfl⟩

theorem Flat.rollDay {st : AccountState} (h : Flat st) (now : Time) : Flat (st.rollDay now) := by
  unfold AccountState.rollDay
  split
  · exact ⟨h.positions, h.exposure, h.idle⟩
  · exact h

theorem notionals_cons {x : Venue.Position} {n : D} (h : Fixed.mul x.entryPrice x.size = some n)
    (xs : List Venue.Position) : notionals (x :: xs) = n :: notionals xs :=
  List.filterMap_cons_some h

/-- Notionals that are not negative and fit together add up to an exposure. -/
theorem exposureOf_nonneg {positions : List Venue.Position} {exposure : D}
    (h : Engine.exposureOf positions = some exposure) (hpos : ∀ n ∈ notionals positions, 0 ≤ n)
    (hfits : ((notionals positions).map Int64.toInt).sum < 2 ^ 63) : 0 ≤ exposure := by
  have hfold : ∀ (xs : List Venue.Position) (sum : D),
      xs.foldlM (fun exposure p => (Fixed.mul p.entryPrice p.size).map (exposure + ·)) sum =
        some exposure → 0 ≤ sum.toInt → (∀ n ∈ notionals xs, 0 ≤ n) →
      sum.toInt + ((notionals xs).map Int64.toInt).sum < 2 ^ 63 → 0 ≤ exposure := by
    intro xs
    induction xs with
    | nil =>
      intro sum h hsum _ _
      obtain rfl := Option.some.inj h
      exact Int64.le_iff_toInt_le.mpr hsum
    | cons x xs ih =>
      intro sum h hsum hpos hfits
      cases hmul : Fixed.mul x.entryPrice x.size with
      | none =>
        rw [List.foldlM_cons, hmul] at h
        cases h
      | some n =>
        rw [List.foldlM_cons, hmul] at h
        rw [notionals_cons hmul] at hpos hfits
        rw [List.map_cons, List.sum_cons] at hfits
        obtain ⟨hn, hrest⟩ := List.forall_mem_cons.mp hpos
        have hn' : 0 ≤ n.toInt := Int64.le_iff_toInt_le.mp hn
        have hrestsum : 0 ≤ ((notionals xs).map Int64.toInt).sum := by
          apply List.sum_nonneg
          intro i hi
          obtain ⟨m, hm, rfl⟩ := List.mem_map.mp hi
          exact Int64.le_iff_toInt_le.mp (hrest m hm)
        have hadd : (sum + n).toInt = sum.toInt + n.toInt :=
          Fixed.toInt_add_of_fits ⟨by omega, by omega⟩
        exact ih (sum + n) h (by omega) hrest (by omega)
  refine hfold positions 0 h (le_refl 0) hpos ?_
  rwa [Int64.toInt_zero, Int.zero_add]

/-- Every state and every row counts its positions. -/
structure Balanced (p : Process) : Prop where
  state : ∀ key st, p.engine.state key = some st → Flat st
  saved : ∀ key st, p.saved key = some st → Flat st

theorem Fresh.balanced (h : p.Fresh) : p.Balanced := by
  constructor
  · intro key st hst
    rw [h.state key] at hst
    cases hst
  · intro key st hst
    rw [h.saved key] at hst
    cases hst

/-- The state that is read counts its positions. -/
theorem Balanced.read (h : p.Balanced) (now : Time) (account : String) :
    Flat (p.engine.stateOf now account) := by
  unfold Engine.stateOf
  cases hst : p.engine.state (p.engine.stateKey account) with
  | none => exact (Flat.fresh now).rollDay now
  | some st => exact (h.state _ st hst).rollDay now

/-- What an event records counts its positions, when the exposure fits. -/
theorem flat_of_records {st : AccountState}
    (hrec : Records (p.engine.stateOf now account) now event account st)
    (hread : Flat (p.engine.stateOf now account)) (hok : p.ExposureFits (now, event)) :
    Flat st := by
  have hexposure : (p.engine.stateOf now account).exposure = (p.engine.book account).exposure :=
    congrArg Book.exposure Engine.stateOf_book
  have hcount := hread.positions
  cases hrec with
  | @opened _ notional =>
    obtain ⟨hn, hfits⟩ := hok
    rw [← hexposure] at hfits
    have he := Int64.le_iff_toInt_le.mp hread.exposure
    have hn' := Int64.le_iff_toInt_le.mp hn
    rw [Int64.toInt_zero] at he hn'
    refine ⟨?_, ?_, ?_⟩
    · change 0 ≤ _ + (1 : Int)
      omega
    · change 0 ≤ _ + notional
      rw [Int64.le_iff_toInt_le, Fixed.toInt_add_of_fits ⟨by omega, hfits⟩, Int64.toInt_zero]
      omega
    · intro hzero
      change _ + (1 : Int) = 0 at hzero
      omega
  | @closed _ notional pnl =>
    refine ⟨?_, (Dealings.clamped_le hread.exposure hok).1, ?_⟩
    · change 0 ≤ ite _ _ _
      split <;> omega
    · exact fun hzero => if_pos (.inr hzero)
  | @reconciled _ positions exposure hsum =>
    obtain ⟨hpos, hfits⟩ := hok
    refine ⟨Int.natCast_nonneg _, exposureOf_nonneg hsum hpos hfits, fun hzero => ?_⟩
    obtain rfl : positions = [] := List.length_eq_zero_iff.mp (Int.natCast_eq_zero.mp hzero)
    exact (Option.some.inj hsum).symm

/-- A step whose exposure fits keeps every count. -/
theorem Balanced.step (h : p.Balanced) (hok : p.ExposureFits act) (hs : p.Step act p') :
    p'.Balanced := by
  obtain ⟨-, -, -, -, heffect⟩ := hs.effect
  obtain ⟨now, event⟩ := act
  have hput : ∀ (rows : String → Option AccountState) (key : String) (st : AccountState),
      (∀ k st, rows k = some st → Flat st) → Flat st →
      ∀ k st', Function.update rows key (some st) k = some st' → Flat st' := by
    intro rows key st hrows hst k st' hk
    by_cases hkey : k = key
    · rw [hkey, Function.update_self] at hk
      exact Option.some.inj hk ▸ hst
    · rw [Function.update_of_ne hkey] at hk
      exact hrows k st' hk
  cases heffect with
  | still _ hstate hsaved =>
    constructor
    · rw [hstate]
      exact h.state
    · rw [hsaved]
      exact h.saved
  | reads account _ hstate hsaved =>
    constructor
    · rw [hstate]
      exact hput _ _ _ h.state (h.read now account)
    · rw [hsaved]
      exact h.saved
  | records account st hrec hstate hsaved =>
    have hst := flat_of_records hrec (h.read now account) hok
    constructor
    · rw [hstate]
      exact hput _ _ _ h.state hst
    · rw [hsaved]
      exact hput _ _ _ h.saved hst
  | restores _ hstate hsaved =>
    constructor
    · intro key st hst
      rw [hstate, Option.map_eq_some_iff] at hst
      obtain ⟨row, hrow, rfl⟩ := hst
      exact (h.saved key row hrow).rollDay now
    · rw [hsaved]
      exact h.saved

/-- In every trace over days and restarts in which no realised loss leaves 64 bits, a snapshot
reports what the closes of the account's group since midnight lost, net, and never less than zero.
In every trace in which no notional is negative and no exposure leaves 64 bits, the exposure it
reports is not negative, and zero when no position is open. -/
theorem daily_accounting {as : List (Time × Event)} (h₀ : p.Fresh) :
    (Run Step LossFits p as q → ∀ now account, q.clock ≤ now →
      (q.engine.snapshot now account).2.dailyLoss.toInt =
        max 0 (lossSince (q.closesOf account) now.startOfDay)) ∧
    (Run Step ExposureFits p as q → ∀ now account,
      0 ≤ (q.engine.snapshot now account).2.exposure ∧
      ((q.engine.snapshot now account).2.openPositions = 0 →
        (q.engine.snapshot now account).2.exposure = 0)) := by
  constructor
  · intro h now account hle
    have hq : q.Accounted := h.invariant h₀.accounted fun _ _ _ hi hok hs => hi.step hok hs
    exact hq.dailyLoss hle account
  · intro h now account
    have hq : q.Balanced := h.invariant h₀.balanced fun _ _ _ hi hok hs => hi.step hok hs
    exact ⟨(hq.read now account).exposure, (hq.read now account).idle⟩

end Process

/-! ## Sums that do not fit -/

/-- The process of one account that nothing is known of. -/
def idleProcess : Process where
  engine := { Engine.new with limits := Function.update (fun _ => none) "0xa" (some (capped 20)) }
  clock := 0
  saved := fun _ => none
  savedKill := (false, "")
  closes := []

theorem idleProcess_fresh : idleProcess.Fresh := ⟨fun _ => rfl, fun _ => rfl, rfl⟩

/-- A loss on one day, a restart on the next, and a gain and a loss on that day. -/
def twoDays : List (Time × Event) :=
  [(0, .call (.recordOpen "0xa" 10)), (1, .call (.recordClose "0xa" 10 (-5))),
    (86400000000000, .restart), (86400000000001, .call (.recordClose "0xa" 0 3)),
    (86400000000002, .call (.recordClose "0xa" 0 (-7)))]

/-- The process after the two days, none of whose sums leaves 64 bits. -/
def afterTwoDays : Process :=
  (exec (fun p act => if Process.LossFits p act ∧ Process.ExposureFits p act then p.next act
    else none) idleProcess twoDays).get (by decide)

/-- The loss before midnight is forgotten, and the gain after the restart counts against the loss
after it. -/
theorem daily_accounting_twoDays :
    Run Process.Step Process.LossFits idleProcess twoDays afterTwoDays ∧
    Run Process.Step Process.ExposureFits idleProcess twoDays afterTwoDays ∧
    4 = max 0 (lossSince (afterTwoDays.closesOf "0xa") (Time.startOfDay 86400000000003)) ∧
    (afterTwoDays.engine.snapshot 86400000000003 "0xa").2.exposure = 0 := by
  have hrun : Run Process.Step (fun p act => p.LossFits act ∧ p.ExposureFits act)
      idleProcess twoDays afterTwoDays := Run.of_exec_guarded (Option.some_get _).symm
  have hloss : Run Process.Step Process.LossFits idleProcess twoDays afterTwoDays :=
    hrun.mono fun _ _ h => h.1
  have hexposure : Run Process.Step Process.ExposureFits idleProcess twoDays afterTwoDays :=
    hrun.mono fun _ _ h => h.2
  obtain ⟨hdaily, hflat⟩ := Process.daily_accounting idleProcess_fresh
  have hreported := hdaily hloss 86400000000003 "0xa" (by decide)
  exact ⟨hloss, hexposure, hreported, (hflat hexposure 86400000000003 "0xa").2 (by decide)⟩

/-- Two closes that lose too much for 64 bits together. -/
def lostTwice : Process :=
  (exec Process.next idleProcess [(0, .call (.recordClose "0xa" 0 (-4611686018427387904))),
    (0, .call (.recordClose "0xa" 0 (-4611686018427387904)))]).get (by decide)

/-- Two opens that are too large for 64 bits together. -/
def openedTwice : Process :=
  (exec Process.next idleProcess [(0, .call (.recordOpen "0xa" 4611686018427387904)),
    (0, .call (.recordOpen "0xa" 4611686018427387904))]).get (by decide)

/-- Two losses that do not fit together are reported as none, and two notionals that do not fit
together leave a negative exposure. -/
theorem sums_wrap :
    (Run Process.Step Always idleProcess [(0, .call (.recordClose "0xa" 0 (-4611686018427387904))),
        (0, .call (.recordClose "0xa" 0 (-4611686018427387904)))] lostTwice ∧
      (lostTwice.engine.snapshot 0 "0xa").2.dailyLoss.toInt ≠
        max 0 (lossSince (lostTwice.closesOf "0xa") (Time.startOfDay 0))) ∧
    Run Process.Step Always idleProcess [(0, .call (.recordOpen "0xa" 4611686018427387904)),
        (0, .call (.recordOpen "0xa" 4611686018427387904))] openedTwice ∧
      (openedTwice.engine.snapshot 0 "0xa").2.exposure < 0 := by
  refine ⟨⟨?_, by decide⟩, ?_, by decide⟩
  · exact Run.of_exec (Option.some_get _).symm fun _ _ _ => trivial
  · exact Run.of_exec (Option.some_get _).symm fun _ _ _ => trivial

end SuperAgent.Policy
