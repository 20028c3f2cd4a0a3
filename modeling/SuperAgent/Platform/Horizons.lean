import SuperAgent.Fixed.Parse
import SuperAgent.Platform.Amend

/-!
# Horizons as they are sent

The app sends a horizon as a number of seconds, of which nanoseconds are made
before anything is checked but its sign. A number of seconds that is too large
wraps, and may wrap to a duration that is accepted.
-/

namespace SuperAgent.Platform

open Fixed (D)
open Venue (Side)

variable {ι : Type}

/-! ## Requests as the app sends them -/

/-- What the app sends to open a position. -/
structure OpenReqDTO where
  symbol : String
  side : String
  notional : String
  leverage : String
  horizonSeconds : Int64
  strategy : String
  maxLoss : String
  takeProfit : String

/-- What the app sends to change a position's exits. -/
structure AmendReqDTO where
  symbol : String
  maxLoss : Option String
  takeProfit : Option String
  extendSeconds : Int64

/-- A side by one of its names. -/
def parseSide (v : String) : Except Error Side :=
  let v := toLower (trimSpace v)
  if v ∈ ["long", "buy", "up"] then .ok .long
  else if v ∈ ["short", "sell", "down"] then .ok .short
  else .error (.invalid "side must be long or short")

/-- A decimal field. -/
def parseField (field v : String) : Except Error D :=
  match Fixed.parse v with
  | .ok d => .ok d
  | .error e => .error (.invalid (field ++ ": " ++ e.text))

/-- A decimal field that may be left empty. -/
def parseOptional (field v : String) (absent : D) : Except Error D :=
  if trimSpace v = "" then .ok absent else parseField field v

/-- A number of seconds as a duration, which wraps. -/
def parseSeconds (field : String) (n : Int64) : Except Error Duration := do
  revertIf (n < 0) (.invalid (field ++ " must not be negative"))
  return n * Duration.second

def parseOpen (dto : OpenReqDTO) : Except Error OpenRequest := do
  let side ← parseSide dto.side
  let notional ← parseField "notional" dto.notional
  let leverage ← parseOptional "leverage" dto.leverage (Fixed.fromInt 1)
  let horizon ← parseSeconds "horizon_seconds" dto.horizonSeconds
  let maxLoss ← parseOptional "max_loss" dto.maxLoss 0
  let takeProfit ← parseOptional "take_profit" dto.takeProfit 0
  return { symbol := dto.symbol, side, notional, leverage, horizon,
           strategy := trimSpace dto.strategy, takeProfit, maxLoss }

def parseAmend (dto : AmendReqDTO) : Except Error AmendRequest := do
  let maxLoss ← dto.maxLoss.mapM fun v => parseField "max_loss" (trimSpace v)
  let takeProfit ← dto.takeProfit.mapM fun v => parseField "take_profit" (trimSpace v)
  let extend ← parseSeconds "extend_seconds" dto.extendSeconds
  return { symbol := dto.symbol, maxLoss, takeProfit, extend }

/-! ## Seconds that wrap -/

/-- A number of seconds in nanoseconds, exactly. -/
def nanos (n : Int64) : Int := n.toInt * 1000000000

/-- What is left of the nanoseconds in a word. -/
def wrapped (n : Int64) : Int := nanos n % 2 ^ 64

theorem toInt_seconds (n : Int64) :
    (n * Duration.second).toInt = if wrapped n < 2 ^ 63 then wrapped n else wrapped n - 2 ^ 64 := by
  have hsecond : Duration.second.toInt = 1000000000 := by decide
  rw [Int64.toInt_mul, hsecond, wrapped, nanos, Int.bmod_def]
  rfl

theorem wrapped_bounds (n : Int64) : 0 ≤ wrapped n ∧ wrapped n < 2 ^ 64 := by
  rw [wrapped]
  omega

/-- Nine thousand million seconds, and some, are the most that fit. -/
theorem wrapped_eq_nanos {n : Int64} (hpos : 0 ≤ n.toInt) (hfits : n.toInt ≤ 9223372036) :
    wrapped n = nanos n ∧ nanos n < 2 ^ 63 := by
  rw [wrapped, nanos]
  omega

/-- Seconds that fit are as many nanoseconds. -/
theorem toInt_seconds_of_fits {n : Int64} (hpos : 0 ≤ n.toInt) (hfits : n.toInt ≤ 9223372036) :
    (n * Duration.second).toInt = nanos n := by
  obtain ⟨hwrapped, hlt⟩ := wrapped_eq_nanos hpos hfits
  rw [toInt_seconds, hwrapped, if_pos hlt]

/-- A product that is not negative is what is left of the nanoseconds in a word. -/
theorem toInt_seconds_of_nonneg {n : Int64} (h : 0 ≤ (n * Duration.second).toInt) :
    (n * Duration.second).toInt = wrapped n := by
  have hbounds := wrapped_bounds n
  rw [toInt_seconds] at h ⊢
  split at h
  · next hlt => rw [if_pos hlt]
  · omega

theorem toInt_eq_zero {n : Int64} : n.toInt = 0 ↔ n = 0 := by
  rw [← Int64.toInt_inj, Int64.toInt_zero]

/-- No horizon is longer than a day, and none that is accepted shorter than ten seconds. -/
theorem horizon_bounds : minHorizon.toInt = 10000000000 ∧ maxHorizon.toInt = 86400000000000 := by
  decide

/-! ## Opening -/

section Open

variable {dto : OpenReqDTO} {req r : OpenRequest} {n : Int64}

/-- A request has the seconds it was sent with, and their sign was checked. -/
theorem parseSeconds_eq_ok {field : String} {d : Duration} :
    parseSeconds field n = .ok d ↔ 0 ≤ n.toInt ∧ d = n * Duration.second := by
  have hsign : ¬ n < 0 ↔ 0 ≤ n.toInt := by
    rw [Int64.lt_iff_toInt_lt, Int64.toInt_zero, not_lt]
  rw [parseSeconds, bind_eq_ok]
  constructor
  · rintro ⟨_, hpos, heq⟩
    exact ⟨hsign.mp (revertIf_eq_ok.mp hpos), (Except.ok.inj heq).symm⟩
  · rintro ⟨hpos, rfl⟩
    exact ⟨(), revertIf_eq_ok.mpr (hsign.mpr hpos), rfl⟩

theorem parseOpen_horizon (h : parseOpen dto = .ok req) :
    0 ≤ dto.horizonSeconds.toInt ∧ req.horizon = dto.horizonSeconds * Duration.second := by
  simp only [parseOpen, bind_eq_ok] at h
  obtain ⟨_, _, _, _, _, _, d, hd, _, _, _, _, hreq⟩ := h
  rw [← Except.ok.inj hreq]
  exact parseSeconds_eq_ok.mp hd

/-- A horizon that is accepted is none or within the bounds. -/
theorem validateHorizon_eq_ok {d : Duration} : validateHorizon d = .ok () ↔
    d = 0 ∨ minHorizon.toInt ≤ d.toInt ∧ d.toInt ≤ maxHorizon.toInt := by
  unfold validateHorizon
  split
  · next hzero => exact iff_of_true rfl (.inl hzero)
  · next hzero =>
    rw [revertIf_eq_ok, Int64.lt_iff_toInt_lt, Int64.lt_iff_toInt_lt, not_or, not_lt, not_lt]
    exact (or_iff_right hzero).symm

/-- A checked request keeps its horizon, and it was accepted. -/
theorem OpenRequest.check_horizon (h : req.check = .ok r) :
    validateHorizon req.horizon = .ok () ∧ r.horizon = req.horizon := by
  simp only [check, bind_eq_ok] at h
  obtain ⟨_, _, _, _, _, _, _, _, _, _, _, _, _, hhorizon, _, _, _, _, hreq⟩ := h
  rw [← Except.ok.inj hreq]
  exact ⟨hhorizon, rfl⟩

/-- The timer that arming a request's exits leaves. -/
theorem Service.armExits_timers {s : Service ι} {now : Time} {tag : ι} {saves : Bool} :
    (s.armExits now tag req saves).exits.timers = if 0 < req.horizon then
      Function.update s.exits.timers req.symbol (some ⟨now.add req.horizon, tag⟩)
    else s.exits.timers := by
  have hrest : ∀ (c d : Prop) [Decidable c] [Decidable d] (x : Exits ι) (st : Stop ι)
      (row : Horizon ι), (if c then (if d then x.armStop req.symbol st else x).saveHorizon s.account
        req.symbol row else if d then x.armStop req.symbol st else x).timers = x.timers := by
    intro c d _ _ x st row
    split <;> split <;> rfl
  refine (hrest _ _ _ _ _).trans ?_
  by_cases hpos : 0 < req.horizon
  · rw [if_pos hpos, if_pos hpos]
    rfl
  · rw [if_neg hpos, if_neg hpos]

/-- An opening order is accepted for no horizon or one within the bounds, and closes its position as
many seconds after it opened as were sent. -/
def OpensAsSent (n : Int64) : Prop := ∀ (dto : OpenReqDTO) (req r : OpenRequest),
  dto.horizonSeconds = n → parseOpen dto = .ok req → req.check = .ok r →
    (n = 0 ∨ minHorizon.toInt ≤ nanos n ∧ nanos n ≤ maxHorizon.toInt) ∧
    ∀ {ι : Type} (s : Service ι) (a : OpenAnswers) (tag : ι), s.arms a req = some r →
      (n = 0 → (s.openPosition a tag req).1.exits.timers = s.exits.timers) ∧
      (n ≠ 0 → (s.openPosition a tag req).1.exits.deadline r.symbol = some (a.after + nanos n))

/-- The seconds of an opening order do not wrap to a horizon that is accepted. -/
def HorizonFits (n : Int64) : Prop := n.toInt ≤ 9223372036 ∨
  wrapped n ≠ 0 ∧ (wrapped n < minHorizon.toInt ∨ maxHorizon.toInt < wrapped n)

instance (n : Int64) : Decidable (HorizonFits n) := inferInstanceAs (Decidable (_ ∨ _))

/-- Seconds that do not wrap to an accepted horizon are accepted only as they are. -/
theorem HorizonFits.accepted (h : HorizonFits n) (hpos : 0 ≤ n.toInt)
    (hvalid : validateHorizon (n * Duration.second) = .ok ()) :
    (n * Duration.second).toInt = nanos n ∧
      (n = 0 ∨ minHorizon.toInt ≤ nanos n ∧ nanos n ≤ maxHorizon.toInt) := by
  obtain ⟨hmin, hmax⟩ := horizon_bounds
  rw [validateHorizon_eq_ok, ← toInt_eq_zero] at hvalid
  rcases h with hfits | ⟨hne, hout⟩
  · have hnanos := toInt_seconds_of_fits hpos hfits
    rw [hnanos] at hvalid
    refine ⟨hnanos, hvalid.imp_left fun hzero => toInt_eq_zero.mp ?_⟩
    rw [nanos] at hzero
    omega
  · have hwrapped : (n * Duration.second).toInt = wrapped n := by
      refine toInt_seconds_of_nonneg ?_
      rcases hvalid with hzero | ⟨hle, -⟩
      · exact hzero.ge
      · exact le_trans (by rw [hmin]; decide) hle
    rw [hwrapped] at hvalid
    omega

/-- A tap as the app sends it, with a horizon of so many seconds. -/
def tapOf (n : Int64) : OpenReqDTO := ⟨"btc", "up", "60", "", n, "", "", ""⟩

theorem parseOpen_tapOf (hpos : 0 ≤ n.toInt) :
    parseOpen (tapOf n) = .ok { tap with horizon := n * Duration.second, leverage := Fixed.fromInt 1 } := by
  have hside : parseSide "up" = .ok .long := by decide
  have hnotional : parseField "notional" "60" = .ok (Fixed.fromInt 60) := by decide
  have hleverage : parseOptional "leverage" "" (Fixed.fromInt 1) = .ok (Fixed.fromInt 1) := by decide
  have hloss : parseOptional "max_loss" "" 0 = .ok 0 := by decide
  have hprofit : parseOptional "take_profit" "" 0 = .ok 0 := by decide
  rw [parseOpen, tapOf]
  dsimp only
  rw [hside, hnotional, hleverage, parseSeconds_eq_ok.mpr ⟨hpos, rfl⟩, hloss, hprofit]
  rfl

/-- A request with another horizon that is accepted is checked the same. -/
theorem OpenRequest.check_withHorizon {d : Duration} (h : req.check = .ok r)
    (hd : validateHorizon d = .ok ()) :
    ({ req with horizon := d } : OpenRequest).check = .ok { r with horizon := d } := by
  simp only [check, bind_eq_ok] at h ⊢
  obtain ⟨_, hsymbol, _, hside, _, hnotional, _, hloss, _, hprofit, _, hleverage, _, -, _, hknown,
    _, hcap, hreq⟩ := h
  refine ⟨_, hsymbol, _, hside, _, hnotional, _, hloss, _, hprofit, _, hleverage, _, hd, _, hknown,
    _, hcap, ?_⟩
  rw [← Except.ok.inj hreq]
  rfl

theorem check_tapOf {d : Duration} (h : validateHorizon d = .ok ()) :
    ({ tap with horizon := d, leverage := Fixed.fromInt 1 } : OpenRequest).check =
      .ok { checkedTap with horizon := d } := by
  have hcheck : ({ tap with leverage := Fixed.fromInt 1 } : OpenRequest).check = .ok checkedTap :=
    rfl
  exact OpenRequest.check_withHorizon hcheck h

/-- What an opening order arms is what was sent, exactly where the seconds do not wrap to a horizon
that is accepted. -/
theorem opensAsSent_iff (n : Int64) : OpensAsSent n ↔ HorizonFits n := by
  obtain ⟨hmin, hmax⟩ := horizon_bounds
  constructor
  · intro h
    by_contra hwraps
    rw [HorizonFits, not_or, not_le, not_and_or, not_not, not_or, not_lt, not_lt] at hwraps
    obtain ⟨hbig, hwraps⟩ := hwraps
    have hpos : 0 ≤ n.toInt := by omega
    have hword : (n * Duration.second).toInt = wrapped n := by
      rw [toInt_seconds, if_pos]
      omega
    have hvalid : validateHorizon (n * Duration.second) = .ok () := by
      rw [validateHorizon_eq_ok, ← toInt_eq_zero, hword]
      exact hwraps
    have haccepted := (h (tapOf n) _ _ rfl (parseOpen_tapOf hpos) (check_tapOf hvalid)).1
    rw [← toInt_eq_zero, nanos] at haccepted
    omega
  · rintro hfits dto req r rfl hparse hcheck
    obtain ⟨hpos, hhorizon⟩ := parseOpen_horizon hparse
    obtain ⟨hvalid, hkeeps⟩ := OpenRequest.check_horizon hcheck
    rw [hhorizon] at hvalid hkeeps
    obtain ⟨hword, haccepted⟩ := hfits.accepted hpos hvalid
    refine ⟨haccepted, fun s a tag harms => ?_⟩
    obtain ⟨-, s', hsame, heq⟩ := s.openPosition_arms harms
    have hsign : 0 < r.horizon ↔ 0 < nanos dto.horizonSeconds := by
      rw [hkeeps, Int64.lt_iff_toInt_lt, hword, Int64.toInt_zero]
    rw [heq, Exits.deadline, Service.armExits_timers, hsame.exits]
    constructor
    · intro hzero
      rw [if_neg]
      rw [hsign, hzero]
      decide
    · intro hne
      have hseconds : dto.horizonSeconds.toInt ≠ 0 := mt toInt_eq_zero.mp hne
      have hnanos : 0 < nanos dto.horizonSeconds := by
        rw [nanos]
        omega
      rw [if_pos (hsign.mpr hnanos), Function.update_self, Option.map_some, hkeeps, Time.add, hword]

end Open

/-! ## Amending -/

section Amend

variable {dto : AmendReqDTO} {req r : AmendRequest} {n : Int64}

theorem parseAmend_eq_ok (h : parseAmend dto = .ok req) :
    0 ≤ dto.extendSeconds.toInt ∧ req.extend = dto.extendSeconds * Duration.second ∧
      req.symbol = dto.symbol := by
  simp only [parseAmend, bind_eq_ok] at h
  obtain ⟨_, _, _, _, d, hd, hreq⟩ := h
  rw [← Except.ok.inj hreq]
  obtain ⟨hpos, heq⟩ := parseSeconds_eq_ok.mp hd
  exact ⟨hpos, heq, rfl⟩

/-- An amendment is accepted when the position then has a day to run at most, and pushes its deadline
out by as many seconds as were sent. -/
def Service.AmendsAsSent (s : Service ι) (tag : ι) (now : Time) (raw : String) (n : Int64) : Prop :=
  ∀ (dto : AmendReqDTO) (req : AmendRequest) (a : AmendAnswers) (out : Amended),
    dto.symbol = raw → dto.extendSeconds = n → a.now = now → parseAmend dto = .ok req →
    (s.amend a tag req).2 = .ok out →
      let start := pushedFrom now (s.exits.deadline (symbolOf raw))
      let left := (s.amend a tag req).1.exits.deadline (symbolOf raw)
      (n = 0 → left = s.exits.deadline (symbolOf raw)) ∧
      (n ≠ 0 → 0 ≤ n.toInt ∧ start + nanos n - now ≤ maxHorizon.toInt ∧
        left = some (start + nanos n))

/-- The seconds of an amendment do not wrap to an extension that is accepted, so much ahead of now as
the position is closed already. -/
def ExtensionFits (n : Int64) (ahead : Int) : Prop := n.toInt ≤ 9223372036 ∨
  wrapped n ≠ 0 ∧ maxHorizon.toInt < ahead + wrapped n

instance (n : Int64) (ahead : Int) : Decidable (ExtensionFits n ahead) :=
  inferInstanceAs (Decidable (_ ∨ _))

theorem le_pushedFrom (now : Time) (pending : Option Time) : now ≤ pushedFrom now pending :=
  le_max_left _ _

/-- An extension that is accepted is the one that was sent. -/
theorem ExtensionFits.accepted {ahead : Int} (h : ExtensionFits n ahead) (hpos : 0 ≤ n.toInt)
    (hsign : ¬ n * Duration.second < 0)
    (hmost : 0 < n * Duration.second → ahead + (n * Duration.second).toInt ≤ maxHorizon.toInt) :
    (n * Duration.second).toInt = nanos n := by
  rcases h with hfits | ⟨hne, hfar⟩
  · exact toInt_seconds_of_fits hpos hfits
  · rw [Int64.lt_iff_toInt_lt, Int64.toInt_zero, not_lt] at hsign
    rw [Int64.lt_iff_toInt_lt, Int64.toInt_zero, toInt_seconds_of_nonneg hsign] at hmost
    have hbounds := wrapped_bounds n
    omega

/-- An amendment that asks for seconds only. -/
def extendBy (raw : String) (n : Int64) : AmendReqDTO := ⟨raw, none, none, n⟩

theorem parseAmend_extendBy (raw : String) (hpos : 0 ≤ n.toInt) :
    parseAmend (extendBy raw n) = .ok ⟨raw, none, none, n * Duration.second⟩ := by
  rw [parseAmend, extendBy]
  dsimp only
  rw [parseSeconds_eq_ok.mpr ⟨hpos, rfl⟩]
  rfl

theorem check_extendBy {raw : String} {d : Duration} (hne : symbolOf raw ≠ "") (hd : ¬ d < 0) :
    (⟨raw, none, none, d⟩ : AmendRequest).check = .ok ⟨symbolOf raw, none, none, d⟩ := by
  simp only [AmendRequest.check, bind_eq_ok]
  exact ⟨(), revertIf_eq_ok.mpr hne, (), revertIf_eq_ok.mpr (by decide), (),
    revertIf_eq_ok.mpr (by decide), (), revertIf_eq_ok.mpr hd, rfl⟩

/-- What an amendment leaves is what was sent, exactly where the seconds do not wrap to an extension
that is accepted. -/
theorem Service.amendsAsSent_iff (s : Service ι) (tag : ι) (now : Time) {raw : String}
    (hne : symbolOf raw ≠ "") (n : Int64) : s.AmendsAsSent tag now raw n ↔
      ExtensionFits n (pushedFrom now (s.exits.deadline (symbolOf raw)) - now) := by
  obtain ⟨-, hmax⟩ := horizon_bounds
  have hahead : (0 : Int) ≤ pushedFrom now (s.exits.deadline (symbolOf raw)) - now :=
    Int.sub_nonneg_of_le (le_pushedFrom _ _)
  constructor
  · intro h
    generalize hstart : pushedFrom now (s.exits.deadline (symbolOf raw)) = start at hahead ⊢
    by_contra hwraps
    rw [ExtensionFits, not_or, not_le, not_and_or, not_not, not_lt] at hwraps
    obtain ⟨hbig, hwraps⟩ := hwraps
    have hpos : 0 ≤ n.toInt := by omega
    have hbounds := wrapped_bounds n
    have hword : (n * Duration.second).toInt = wrapped n := by
      rw [toInt_seconds, if_pos]
      rw [hmax] at hwraps
      omega
    have hsign : ¬ n * Duration.second < 0 := by
      rw [Int64.lt_iff_toInt_lt, hword, Int64.toInt_zero]
      omega
    have hmost : 0 < n * Duration.second →
        start.add (n * Duration.second) - now ≤ maxHorizon.toInt := by
      rw [Int64.lt_iff_toInt_lt, Time.add, hword, Int64.toInt_zero]
      intro hlt
      have hle := hwraps.resolve_left hlt.ne'
      rw [add_sub_right_comm]
      exact hle
    have hpush := pushOut_eq_ok.mpr ⟨rfl, hstart ▸ hmost⟩
    obtain ⟨out, hout⟩ := s.amend_ok (a := ⟨now, .ok [{ tapped with symbol := symbolOf raw }], true⟩)
      tag (check_extendBy hne hsign) rfl List.mem_cons_self rfl hpush
    have hnonzero : n ≠ 0 := by
      rintro rfl
      exact absurd hbig (by decide)
    have hsent := ((h (extendBy raw n) _ _ out rfl rfl rfl (parseAmend_extendBy raw hpos) hout).2
      hnonzero).2.1
    rw [hstart, add_sub_right_comm, hmax, nanos] at hsent
    have hlarge : ∀ ahead m : Int, 0 ≤ ahead → 9223372036 < m →
        ¬ ahead + m * 1000000000 ≤ 86400000000000 := by
      intro ahead m
      omega
    exact hlarge _ _ hahead hbig hsent
  · rintro hfits dto req a out rfl rfl rfl hparse hout
    obtain ⟨hpos, hextend, hsymbol⟩ := parseAmend_eq_ok hparse
    obtain ⟨r, closesAt, hcheck, hpush, -, hs⟩ := amend_eq_ok hout
    have hsign := AmendRequest.check_extend hcheck
    obtain rfl := AmendRequest.check_eq_ok hcheck
    rw [hsymbol, hextend] at hpush
    rw [hextend] at hsign
    obtain ⟨hpushed, hstays⟩ := pushOut_spec hpush
    obtain ⟨hcloses, hmost⟩ := pushOut_eq_ok.mp hpush
    have hleft : (s.amend a tag req).1.exits.deadline (symbolOf dto.symbol) = closesAt := by
      rw [hs, ← hsymbol]
      dsimp only
      refine (rearm_armed _ _ _ _ ?_ ?_).1
      · rw [hextend]
        exact hpushed
      · rw [hextend, hsymbol]
        exact hstays
    dsimp only
    rw [hleft]
    generalize pushedFrom a.now (s.exits.deadline (symbolOf dto.symbol)) = start at *
    have hword : (dto.extendSeconds * Duration.second).toInt = nanos dto.extendSeconds := by
      refine hfits.accepted hpos hsign fun hlt => ?_
      rw [← add_sub_right_comm]
      exact hmost hlt
    have hsigned : 0 < dto.extendSeconds * Duration.second ↔ 0 < nanos dto.extendSeconds := by
      rw [Int64.lt_iff_toInt_lt, hword, Int64.toInt_zero]
    constructor
    · intro hzero
      rw [hcloses, if_neg]
      rw [hsigned, hzero]
      decide
    · intro hne
      have hseconds : dto.extendSeconds.toInt ≠ 0 := mt toInt_eq_zero.mp hne
      have hnanos : 0 < nanos dto.extendSeconds := by
        rw [nanos]
        omega
      have hlt := hsigned.mpr hnanos
      rw [Time.add, hword] at hcloses hmost
      rw [if_pos hlt] at hcloses
      exact ⟨hpos, hmost hlt, hcloses⟩

/-- Whatever number of seconds the app sends, an opening order arms it and an amendment adds it
exactly where the product with a second does not wrap to a duration that is accepted. -/
theorem horizons_sent_iff (n : Int64) : (OpensAsSent n ↔ HorizonFits n) ∧
    ∀ {ι : Type} (s : Service ι) (tag : ι) (now : Time) (raw : String), symbolOf raw ≠ "" →
      (s.AmendsAsSent tag now raw n ↔
        ExtensionFits n (pushedFrom now (s.exits.deadline (symbolOf raw)) - now)) :=
  ⟨opensAsSent_iff n, fun s tag now _ hne => s.amendsAsSent_iff tag now hne n⟩

/-- A minute is armed, and added, as it is. -/
theorem horizons_sent_minute : OpensAsSent 60 ∧ started.AmendsAsSent () 0 "btc" 60 :=
  ⟨(horizons_sent_iff 60).1.mpr (by decide),
    ((horizons_sent_iff 60).2 started () 0 "btc" (by decide)).mpr (by decide)⟩

/-- More than five hundred years are taken for ten seconds, and for a fraction of one. -/
theorem horizon_wraps :
    (∃ req r, parseOpen (tapOf 18446744084) = .ok req ∧ req.check = .ok r ∧
      r.horizon.toInt = 10290448384) ∧
    (∃ req out, parseAmend (extendBy "btc" 18446744074) = .ok req ∧
      (holding.service.amend tappedOpen () req).2 = .ok out ∧ out.closesAt = some 290448384) ∧
    ¬ OpensAsSent 18446744084 ∧ ¬ holding.service.AmendsAsSent () 0 "btc" 18446744074 := by
  refine ⟨⟨_, _, parseOpen_tapOf (by decide), check_tapOf (by decide), by decide⟩, ?_, ?_, ?_⟩
  · exact ⟨_, ⟨"BTC", some 290448384, 0, 0⟩, parseAmend_extendBy "btc" (by decide), by rfl, rfl⟩
  · rw [opensAsSent_iff]
    decide
  · rw [Service.amendsAsSent_iff _ _ _ (by decide)]
    decide

end Amend

end SuperAgent.Platform
