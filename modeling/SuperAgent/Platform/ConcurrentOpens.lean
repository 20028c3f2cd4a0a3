import SuperAgent.Core.Run
import SuperAgent.Platform.Service

/-!
# Opening orders side by side

`Open` checks the limits and records the position in two separate critical
sections, with the venue's answer between them. Any number of calls may be
between the two at once; the limits hold in every interleaving in which each
granted check counts the calls already granted and not recorded yet.
-/

namespace SuperAgent.Platform

open Fixed (D)
open Venue (Order OrderRequest)
open Policy (Engine Limits fromOrder)

/-- A call of `Open` between its granted check and its record. -/
structure Pending where
  /-- What was asked for. -/
  notional : D
  /-- What opened, once the venue accepted the order. -/
  opened : Option D

/-- An account's engine with the calls of `Open` under way. -/
structure Race where
  engine : Engine
  now : Time
  pending : List Pending
  /-- When each open was recorded, oldest first. -/
  opens : List Time

/-- What happens next. -/
inductive RaceAction
  | tick
  | authorize (req : OpenRequest) (clientID : String)
  | place
  | record

variable (account : String)

/-- One atomic step of one call, or time passing. -/
inductive Race.Step : Race → RaceAction → Race → Prop
  | tick {w : Race} {t : Time} : w.now ≤ t → Step w .tick { w with now := t }
  | invalid {w : Race} {req : OpenRequest} {id : String} {e : Error} :
      req.check = .error e → Step w (.authorize req id) w
  | denied {w : Race} {req checked : OpenRequest} {id : String} {engine : Engine}
      {denial : Policy.Denial} :
      req.check = .ok checked →
      w.engine.authorize w.now (fromOrder account (checked.order id)) = (engine, some denial) →
      Step w (.authorize req id) { w with engine }
  | granted {w : Race} {req checked : OpenRequest} {id : String} {engine : Engine} :
      req.check = .ok checked →
      w.engine.authorize w.now (fromOrder account (checked.order id)) = (engine, none) →
      Step w (.authorize req id)
        { w with engine, pending := w.pending ++ [⟨checked.notional, none⟩] }
  /-- The venue accepts the order and fills it for at most the requested notional. -/
  | accepted {w : Race} {l r : List Pending} {notional opened : D} {placed : Order} :
      w.pending = l ++ ⟨notional, none⟩ :: r → placed.status ≠ .failed →
      openedNotional notional placed = some opened → 0 ≤ opened → opened ≤ notional →
      Step w .place { w with pending := l ++ ⟨notional, some opened⟩ :: r }
  /-- The venue does not take the order. -/
  | refused {w : Race} {l r : List Pending} {notional : D} :
      w.pending = l ++ ⟨notional, none⟩ :: r → Step w .place { w with pending := l ++ r }
  | recorded {w : Race} {l r : List Pending} {notional opened : D} :
      w.pending = l ++ ⟨notional, some opened⟩ :: r →
      Step w .record { w with
        engine := w.engine.recordOpen w.now account opened
        pending := l ++ r
        opens := w.opens ++ [w.now] }

/-- What a call under way may still record. -/
def Pending.amount (p : Pending) : D := p.opened.getD p.notional

/-- What the calls under way may still record, together. -/
def Race.reserved (w : Race) : Int := (w.pending.map fun p => p.amount.toInt).sum

/-- The openings recorded for the account. -/
def Race.book (w : Race) : Policy.Book := w.engine.book account

/-- The limits still admit the order when every call granted and not recorded yet is counted
as if it were recorded in full. -/
structure Race.Admits (limits : Limits) (w : Race) (notional : D) : Prop where
  positions : (w.book account).openPositions + w.pending.length < limits.maxOpenPositions
  exposure : 0 < limits.maxTotalExposure →
    (w.book account).exposure.toInt + w.reserved + notional.toInt ≤ limits.maxTotalExposure.toInt
  cooldown : 0 < limits.cooldown → w.pending = []

/-- Every granted check would also be granted with the calls under way counted. -/
def Counted (limits : Limits) (w : Race) : RaceAction → Prop
  | .authorize req id => ∀ checked engine, req.check = .ok checked →
      w.engine.authorize w.now (fromOrder account (checked.order id)) = (engine, none) →
      w.Admits account limits checked.notional
  | _ => True

/-- An account with valid limits, no position and no call under way. -/
structure Race.Flat (limits : Limits) (w : Race) : Prop where
  installed : w.engine.limits account = some limits
  valid : limits.validate = .ok ()
  openPositions : (w.book account).openPositions = 0
  exposure : (w.book account).exposure = 0
  pending : w.pending = []
  opens : w.opens = []

/-- The limits hold, with room for every call under way. -/
structure Race.Within (limits : Limits) (w : Race) : Prop where
  installed : w.engine.limits account = some limits
  amounts : ∀ p ∈ w.pending, 0 ≤ p.amount.toInt
  positions : (w.book account).openPositions + w.pending.length ≤ limits.maxOpenPositions
  exposure : 0 < limits.maxTotalExposure → 0 ≤ (w.book account).exposure.toInt ∧
    (w.book account).exposure.toInt + w.reserved ≤ limits.maxTotalExposure.toInt
  past : ∀ t ∈ w.opens, t ≤ w.now
  /-- The engine knows of the last open, so the cooldown is judged against it. -/
  last : ∀ t ∈ w.opens, ∃ last, (w.book account).lastOpen = some last ∧ t ≤ last
  alone : 0 < limits.cooldown → w.pending.length ≤ 1
  ready : 0 < limits.cooldown → w.pending ≠ [] → ∀ t ∈ w.opens, limits.cooldown.toInt ≤ w.now - t
  apart : w.opens.Pairwise fun t u => limits.cooldown.toInt ≤ u - t

/-! ## Each step keeps the limits -/

section Step

variable {account : String} {limits : Limits} {w w' : Race}

/-- A checked request asks for something. -/
theorem OpenRequest.check_notional {req checked : OpenRequest} (h : req.check = .ok checked) :
    0 < checked.notional := by
  simp only [check, bind_eq_ok, revertIf_eq_ok] at h
  obtain ⟨_, _, _, _, _, hpos, _, _, _, _, _, _, _, _, _, _, _, _, h⟩ := h
  rw [← Except.ok.inj h]
  exact Decidable.not_not.mp hpos

/-- What is reserved by calls around one of them. -/
theorem Race.reserved_mid {l r : List Pending} {p : Pending} (h : w.pending = l ++ p :: r) :
    w.reserved = p.amount.toInt + ({ w with pending := l ++ r } : Race).reserved := by
  simp only [Race.reserved, h, List.map_append, List.map_cons, List.sum_append, List.sum_cons]
  omega

/-- The limits hold at the start. -/
theorem Race.Flat.within (h : w.Flat account limits) : w.Within account limits where
  installed := h.installed
  amounts := by simp [h.pending]
  positions := by
    have hvalid := h.valid
    simp only [Limits.validate, bind_eq_ok, revertIf_eq_ok] at hvalid
    obtain ⟨_, _, _, _, _, _, _, _, _, _, _, hmax, _⟩ := hvalid
    simp only [h.openPositions, h.pending, List.length_nil]
    omega
  exposure hpos := by
    have := Int64.lt_iff_toInt_lt.mp hpos
    simp only [h.exposure, Race.reserved, h.pending, List.map_nil, List.sum_nil]
    simp only [Int64.toInt_zero] at this ⊢
    omega
  past := by simp [h.opens]
  last := by simp [h.opens]
  alone _ := by simp [h.pending]
  ready _ hne := absurd h.pending hne
  apart := by simp [h.opens]

/-- A check that changes neither limits nor openings leaves the limits holding. -/
theorem Race.Within.engine {engine : Engine} (h : w.Within account limits)
    (hlimits : engine.limits = w.engine.limits)
    (hbook : engine.book account = w.engine.book account) :
    ({ w with engine } : Race).Within account limits := by
  have hsame : ({ w with engine } : Race).book account = w.book account := hbook
  exact { h with
    installed := hlimits ▸ h.installed
    positions := hsame ▸ h.positions
    exposure := hsame ▸ h.exposure
    last := hsame ▸ h.last }

/-- Dropping a call leaves the limits holding. -/
theorem Race.Within.drop {l r : List Pending} {p : Pending} (h : w.Within account limits)
    (hp : w.pending = l ++ p :: r) :
    ({ w with pending := l ++ r } : Race).Within account limits := by
  have hlen : w.pending.length = (l ++ r).length + 1 := by
    rw [hp, List.length_append, List.length_cons, List.length_append]
    omega
  have hmem : p ∈ w.pending := by simp [hp]
  have hamount := h.amounts p hmem
  have hreserved := Race.reserved_mid hp
  refine ⟨h.installed, fun q hq => h.amounts q ?_, ?_, fun hpos => ?_, h.past, h.last, fun hc => ?_,
    fun hc _ => h.ready hc (List.ne_nil_of_mem hmem), h.apart⟩
  · rw [hp]
    rcases List.mem_append.mp hq with hq | hq
    · exact List.mem_append_left _ hq
    · exact List.mem_append_right _ (List.mem_cons_of_mem _ hq)
  · have hcount := h.positions
    simp only [Race.book] at hcount ⊢
    omega
  · have hexp := h.exposure hpos
    simp only [Race.book] at hexp ⊢
    omega
  · have := h.alone hc
    simp only
    omega

/-- A granted check found the cooldown over. -/
theorem Race.Within.cooled {engine : Engine} {req : Policy.Request} (h : w.Within account limits)
    (hopen : req.reduce = false) (haccount : req.account = account)
    (hgrant : w.engine.authorize w.now req = (engine, none)) (hc : 0 < limits.cooldown) :
    ∀ t ∈ w.opens, limits.cooldown.toInt ≤ w.now - t := by
  intro t ht
  obtain ⟨l, hl, _, hdenies⟩ := Engine.authorize_granted hopen (congrArg Prod.snd hgrant)
  rw [haccount] at hl hdenies
  obtain rfl : limits = l := Option.some.inj (h.installed.symm.trans hl)
  obtain ⟨last, hlast, hle⟩ := h.last t ht
  have hlast' : (w.engine.stateOf w.now account).lastOpen = some last :=
    (congrArg Policy.Book.lastOpen Engine.stateOf_book).trans hlast
  have hcool := Policy.AccountState.cooling_eq_none.mp
    (Policy.AccountState.denies_eq_none.mp hdenies).2.2.2 last hlast' hc
  exact (Time.le_of_le_sub hc hcool).trans (sub_le_sub_left hle w.now)

/-- A granted check that counts the calls under way leaves room for one more. -/
theorem Race.Within.granted {engine : Engine} {req checked : OpenRequest} {id : String}
    (h : w.Within account limits) (hcheck : req.check = .ok checked)
    (hgrant : w.engine.authorize w.now (fromOrder account (checked.order id)) = (engine, none))
    (hadmits : w.Admits account limits checked.notional) :
    ({ w with engine, pending := w.pending ++ [⟨checked.notional, none⟩] } : Race).Within account
      limits := by
  obtain ⟨hlimits, hbook⟩ := Engine.authorize_frame hgrant
  have hpos := Int64.lt_iff_toInt_lt.mp (OpenRequest.check_notional hcheck)
  rw [Int64.toInt_zero] at hpos
  have hk := h.engine hlimits hbook
  have hamount : (⟨checked.notional, none⟩ : Pending).amount = checked.notional := rfl
  refine { hk with amounts := ?_, positions := ?_, exposure := ?_, alone := ?_, ready := ?_ }
  · intro p hp
    rcases List.mem_append.mp hp with hp | hp
    · exact h.amounts p hp
    · rw [List.mem_singleton.mp hp, hamount]
      omega
  · have hroom := hadmits.positions
    have hsame : (w.engine.book account).openPositions = (engine.book account).openPositions :=
      congrArg _ hbook.symm
    simp only [Race.book, List.length_append, List.length_singleton] at hroom ⊢
    omega
  · intro hmax
    have hroom := hadmits.exposure hmax
    have hold := (h.exposure hmax).1
    have hsame : engine.book account = w.engine.book account := hbook
    simp only [Race.book, Race.reserved, hsame, List.map_append, List.map_cons, List.map_nil,
      List.sum_append, List.sum_cons, List.sum_nil, hamount] at hroom hold ⊢
    omega
  · intro hc
    simp [hadmits.cooldown hc]
  · intro hc _
    exact h.cooled rfl rfl hgrant hc

/-- An order filled for no more than was asked takes no more room. -/
theorem Race.Within.accepted {l r : List Pending} {notional opened : D}
    (h : w.Within account limits) (hp : w.pending = l ++ ⟨notional, none⟩ :: r)
    (hpos : 0 ≤ opened) (hle : opened ≤ notional) :
    ({ w with pending := l ++ ⟨notional, some opened⟩ :: r } : Race).Within account limits := by
  have hlen : (l ++ ⟨notional, some opened⟩ :: r).length = w.pending.length := by
    simp [hp]
  have hpos' := Int64.le_iff_toInt_le.mp hpos
  have hle' := Int64.le_iff_toInt_le.mp hle
  rw [Int64.toInt_zero] at hpos'
  have hne : w.pending ≠ [] := by simp [hp]
  refine { h with
    amounts := ?_
    positions := hlen ▸ h.positions
    exposure := ?_
    alone := fun hc => hlen ▸ h.alone hc
    ready := fun hc _ => h.ready hc hne }
  · intro q hq
    rcases List.mem_append.mp hq with hq | hq
    · exact h.amounts q (hp ▸ List.mem_append_left _ hq)
    · rcases List.mem_cons.mp hq with rfl | hq
      · exact hpos'
      · exact h.amounts q (hp ▸ List.mem_append_right _ (List.mem_cons_of_mem _ hq))
  · intro hmax
    have hexp := h.exposure hmax
    have hold := Race.reserved_mid hp
    have hnew := Race.reserved_mid
      (w := { w with pending := l ++ ⟨notional, some opened⟩ :: r }) rfl
    simp only [Pending.amount, Option.getD_none, Option.getD_some, Race.book] at hold hnew hexp ⊢
    omega

/-- Recording what a call reserved keeps the limits, and the distance to the opens before. -/
theorem Race.Within.recorded {l r : List Pending} {notional opened : D}
    (h : w.Within account limits) (hp : w.pending = l ++ ⟨notional, some opened⟩ :: r) :
    ({ w with
        engine := w.engine.recordOpen w.now account opened
        pending := l ++ r
        opens := w.opens ++ [w.now] } : Race).Within account limits := by
  have hdrop := h.drop hp
  have hmem : ⟨notional, some opened⟩ ∈ w.pending := by simp [hp]
  have hamount := h.amounts _ hmem
  have hreserved := Race.reserved_mid hp
  have hbook : (w.engine.recordOpen w.now account opened).book account =
      ⟨some w.now, (w.book account).openPositions + 1, (w.book account).exposure + opened⟩ :=
    Engine.recordOpen_book
  have hlen : w.pending.length = (l ++ r).length + 1 := by simp [hp]; omega
  refine ⟨h.installed, hdrop.amounts, ?_, ?_, ?_, ?_, ?_, ?_, ?_⟩
  · have hcount := h.positions
    simp only [Race.book, hbook] at hcount ⊢
    omega
  · intro hmax
    have hexp := h.exposure hmax
    have hrest : 0 ≤ ({ w with pending := l ++ r } : Race).reserved := by
      refine List.sum_nonneg fun v hv => ?_
      obtain ⟨q, hq, rfl⟩ := List.mem_map.mp hv
      exact hdrop.amounts q hq
    have htop := Int64.toInt_lt limits.maxTotalExposure
    simp only [Pending.amount, Option.getD_some] at hamount hreserved
    have hfits : (w.book account).exposure.toInt + opened.toInt =
        ((w.book account).exposure + opened).toInt :=
      (Fixed.toInt_add_of_fits ⟨by omega, by omega⟩).symm
    simp only [Race.book, hbook, Race.reserved] at hexp hfits hreserved ⊢
    omega
  · intro t ht
    rcases List.mem_append.mp ht with ht | ht
    · exact h.past t ht
    · rw [List.mem_singleton.mp ht]
  · intro t ht
    refine ⟨w.now, by rw [Race.book, hbook], ?_⟩
    rcases List.mem_append.mp ht with ht | ht
    · exact h.past t ht
    · rw [List.mem_singleton.mp ht]
  · exact fun hc => hdrop.alone hc
  · intro hc hne
    have := h.alone hc
    have : (l ++ r).length = 0 := by omega
    exact absurd (List.eq_nil_of_length_eq_zero this) hne
  · rw [List.pairwise_append]
    refine ⟨h.apart, List.pairwise_singleton _ _, fun t ht u hu => ?_⟩
    rw [List.mem_singleton.mp hu]
    have hpast : (0 : Int) ≤ w.now - t := sub_nonneg.mpr (h.past t ht)
    -- with a cooldown the call was alone and checked it; without one the order of time is enough
    by_cases hc : 0 < limits.cooldown
    · exact h.ready hc (List.ne_nil_of_mem hmem) t ht
    · have hzero := Int64.le_iff_toInt_le.mp (Int64.not_lt.mp hc)
      rw [Int64.toInt_zero] at hzero
      omega

/-- A call granted while no other is under way counts them all, unless its exposure is beyond
what a decimal holds. -/
theorem Race.alone_admits {engine : Engine} {checked : OpenRequest} {id : String}
    (h : w.Within account limits) (halone : w.pending = [])
    (hgrant : w.engine.authorize w.now (fromOrder account (checked.order id)) = (engine, none))
    (hfits : Fixed.Fits ((w.book account).exposure.toInt + checked.notional.toInt)) :
    w.Admits account limits checked.notional := by
  obtain ⟨l, hl, _, hdenies⟩ := Engine.authorize_granted rfl (congrArg Prod.snd hgrant)
  obtain rfl : limits = l := Option.some.inj (h.installed.symm.trans hl)
  obtain ⟨_, hcount, hexposure, _⟩ := Policy.AccountState.denies_eq_none.mp hdenies
  have hbook : (w.engine.stateOf w.now account).book = w.book account := Engine.stateOf_book
  have hpositions := congrArg Policy.Book.openPositions hbook
  have hexposures := congrArg Policy.Book.exposure hbook
  simp only [Policy.AccountState.book] at hpositions hexposures
  refine ⟨?_, fun hmax => ?_, fun _ => halone⟩
  · simp only [fromOrder] at hcount
    simp only [halone, List.length_nil]
    omega
  · have hsum := Int64.le_iff_toInt_le.mp (hexposure hmax)
    simp only [fromOrder, hexposures] at hsum
    change ((w.book account).exposure + checked.notional).toInt ≤ _ at hsum
    rw [Fixed.toInt_add_of_fits hfits] at hsum
    simpa [Race.reserved, halone] using hsum

end Step

/-- In every interleaving in which each granted check counts the calls under way, no more
positions are recorded than allowed, the recorded exposure stays within a positive cap, and any
two recorded opens are a cooldown apart. -/
theorem limits_hold {account : String} {limits : Limits} {w₀ w : Race} {as : List RaceAction}
    (h₀ : w₀.Flat account limits)
    (h : Run (Race.Step account) (Counted account limits) w₀ as w) :
    (w.book account).openPositions ≤ limits.maxOpenPositions ∧
    (0 < limits.maxTotalExposure → (w.book account).exposure ≤ limits.maxTotalExposure) ∧
    w.opens.Pairwise fun t u => limits.cooldown.toInt ≤ u - t := by
  have hw : w.Within account limits := by
    refine h.invariant h₀.within fun t a u ht hok hs => ?_
    cases hs with
    | tick hle =>
      exact { ht with
        past := fun t h => (ht.past t h).trans hle
        ready := fun hc hne t h => (ht.ready hc hne t h).trans (sub_le_sub_right hle t) }
    | invalid _ => exact ht
    | denied _ hdenied =>
      obtain ⟨hlimits, hbook⟩ := Engine.authorize_frame hdenied
      exact ht.engine hlimits hbook
    | granted hcheck hgrant => exact ht.granted hcheck hgrant (hok _ _ hcheck hgrant)
    | accepted hp _ _ hpos hle => exact ht.accepted hp hpos hle
    | refused hp => exact ht.drop hp
    | recorded hp => exact ht.recorded hp
  refine ⟨?_, fun hmax => ?_, hw.apart⟩
  · have := hw.positions
    omega
  · have hexp := hw.exposure hmax
    have hrest : 0 ≤ w.reserved := by
      refine List.sum_nonneg fun v hv => ?_
      obtain ⟨q, hq, rfl⟩ := List.mem_map.mp hv
      exact hw.amounts q hq
    rw [Int64.le_iff_toInt_le]
    omega

/-! ## Two taps at once -/

/-- Limits that allow one position at a time. -/
def oneAtATime : Limits where
  allowedSymbols := ["BTC"]
  maxNotional := Fixed.fromInt 100
  minNotional := 0
  maxLeverage := Fixed.fromInt 10
  maxTotalExposure := Fixed.fromInt 100
  maxOpenPositions := 1
  dailyLoss := Fixed.fromInt 10
  cooldown := Duration.second
  group := ""

/-- A wallet under those limits that has opened nothing. -/
def idle : Race where
  engine := { Engine.new with limits := Function.update (fun _ => none) "0xa" (some oneAtATime) }
  now := 0
  pending := []
  opens := []

theorem idle_flat : idle.Flat "0xa" oneAtATime := ⟨rfl, rfl, rfl, rfl, rfl, rfl⟩

/-- A tap for sixty units. -/
def tap : OpenRequest := ⟨"btc", .long, Fixed.fromInt 60, 0, 0, "", 0, 0⟩

/-- The same with its defaults. -/
def checkedTap : OpenRequest :=
  ⟨"BTC", .long, Fixed.fromInt 60, Fixed.fromInt 1, 0, "direction", 0, 0⟩

/-- An order that filled sixty units' worth. -/
def filled : Order := ⟨"1", .filled, Fixed.fromInt 60, Fixed.fromInt 1, 0, 0⟩

section Tap

variable (w : Race)

/-- A granted tap joins the calls under way. -/
theorem Race.Step.tapped (id : String)
    (h : (w.engine.authorize w.now (fromOrder "0xa" (checkedTap.order id))).2 = none) :
    Race.Step "0xa" w (.authorize tap id) { w with
      engine := (w.engine.authorize w.now (fromOrder "0xa" (checkedTap.order id))).1
      pending := w.pending ++ [⟨checkedTap.notional, none⟩] } :=
  .granted rfl (Prod.ext rfl h)

/-- The order of the first call under way fills. -/
theorem Race.Step.filledFirst (r : List Pending) (h : w.pending = ⟨Fixed.fromInt 60, none⟩ :: r) :
    Race.Step "0xa" w .place
      { w with pending := ⟨Fixed.fromInt 60, some (Fixed.fromInt 60)⟩ :: r } := by
  have hopened : openedNotional (Fixed.fromInt 60) filled = some (Fixed.fromInt 60) := rfl
  exact .accepted (l := []) h (by decide) hopened (by decide) (by decide)

/-- The first call under way is recorded. -/
theorem Race.Step.recordedFirst (r : List Pending) (n o : D) (h : w.pending = ⟨n, some o⟩ :: r) :
    Race.Step "0xa" w .record { w with
      engine := w.engine.recordOpen w.now "0xa" o
      pending := r
      opens := w.opens ++ [w.now] } :=
  .recorded (l := []) h

end Tap

/-- One call from its check to its record. -/
theorem limits_hold_tap : ∃ w as, Run (Race.Step "0xa") (Counted "0xa" oneAtATime) idle as w ∧
    w.opens = [0] ∧ (w.book "0xa").openPositions ≤ 1 := by
  have hadmits : Counted "0xa" oneAtATime idle (.authorize tap "1") := by
    rintro checked engine hcheck hgrant
    obtain rfl : checkedTap = checked := Except.ok.inj hcheck
    exact Race.alone_admits idle_flat.within rfl hgrant (by decide)
  have htap := Run.nil.snoc hadmits (Race.Step.tapped _ "1" rfl)
  have hfill := htap.snoc (by trivial) (Race.Step.filledFirst _ [] rfl)
  have h := hfill.snoc (by trivial) (Race.Step.recordedFirst _ [] _ _ rfl)
  exact ⟨_, _, h, rfl, (limits_hold idle_flat h).1⟩

/-- Two calls that both pass the check before either is recorded: one position is allowed, two
are recorded, worth more than the cap and at the same moment. -/
theorem two_taps_exceed : ∃ w as, idle.Flat "0xa" oneAtATime ∧
    Run (Race.Step "0xa") Always idle as w ∧
    oneAtATime.maxOpenPositions < (w.book "0xa").openPositions ∧
    oneAtATime.maxTotalExposure < (w.book "0xa").exposure ∧
    ¬ w.opens.Pairwise fun t u => oneAtATime.cooldown.toInt ≤ u - t := by
  have hstart : Run (Race.Step "0xa") Always idle [] idle := .nil
  have htap := hstart.snoc trivial (Race.Step.tapped idle "1" rfl)
  have htaps := htap.snoc trivial (Race.Step.tapped _ "2" rfl)
  have hfill := htaps.snoc trivial (Race.Step.filledFirst _ _ rfl)
  have hrecord := hfill.snoc trivial (Race.Step.recordedFirst _ _ _ _ rfl)
  have hfill' := hrecord.snoc trivial (Race.Step.filledFirst _ [] rfl)
  have h := hfill'.snoc trivial (Race.Step.recordedFirst _ [] _ _ rfl)
  exact ⟨_, _, idle_flat, h, by decide, by decide, by decide⟩

end SuperAgent.Platform
