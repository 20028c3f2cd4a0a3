import SuperAgent.Platform.ConcurrentOpens

/-!
# The engine and the venue

The policy engine counts positions and exposure from the outcome of each order.
Over a sequential run its count is the venue's as long as every order either
did nothing or did what its answer says, in a market that was flat, and the
venue changes nothing on its own.
-/

namespace SuperAgent.Platform

open Fixed (D)
open Venue (Order Position)
open Policy (Engine)

/-- A service on one account, and the positions the venue holds for it. -/
structure Mirror where
  service : Service Unit
  positions : List Position

/-- One operation with everything the venue answered, and the positions it held afterwards. -/
inductive MirrorAction
  | opened (a : OpenAnswers) (req : OpenRequest) (after : List Position)
  | closed (a : CloseAnswers) (symbol : String) (reason : CloseReason) (after : List Position)
  /-- The venue changes positions on its own: a liquidation, a fill of an order left open. -/
  | venue (after : List Position)

/-- Two lists of positions agree outside a market. -/
def AgreeOutside (symbol : String) (before after : List Position) : Prop :=
  after.filter (·.symbol ≠ symbol) = before.filter (·.symbol ≠ symbol)

/-- One position a market. -/
def Netted (positions : List Position) : Prop := (positions.map Position.symbol).Nodup

/-- One operation, run to its end. An order changes at most the position of its own market, and
nothing changes where no order reaches the venue. -/
inductive Mirror.Step : Mirror → MirrorAction → Mirror → Prop
  | opened {w : Mirror} {a : OpenAnswers} {req : OpenRequest} {after : List Position} :
      Netted after →
      (∀ e, (w.service.admitOpen a req).2 = .error e → after = w.positions) →
      (∀ r, (w.service.admitOpen a req).2 = .ok r → AgreeOutside r.symbol w.positions after) →
      Step w (.opened a req after) ⟨(w.service.openPosition a () req).1, after⟩
  | closed {w : Mirror} {a : CloseAnswers} {symbol : String} {reason : CloseReason}
      {after : List Position} :
      Netted after → (∀ ps, a.positions = .ok ps → ps = w.positions) →
      (∀ e, (w.service.admitClose a symbol).2 = .error e → after = w.positions) →
      AgreeOutside symbol w.positions after →
      Step w (.closed a symbol reason after) ⟨(w.service.close a symbol reason).1, after⟩
  | venue {w : Mirror} {after : List Position} :
      Netted after → Step w (.venue after) { w with positions := after }

/-- The notional the engine books for a position. -/
def notionalOf (p : Position) : Int := ((Fixed.mul p.entryPrice p.size).map Int64.toInt).getD 0

/-- What the engine has recorded for the account. -/
def Service.book {ι : Type} (s : Service ι) : Policy.Book := s.engine.book s.account

/-- The engine's view is the venue's. -/
structure Mirror.Agrees (w : Mirror) : Prop where
  openPositions : w.service.book.openPositions = w.positions.length
  exposure : w.service.book.exposure = 0 ↔ w.positions = []

/-! ## What each operation does to the record -/

namespace Service

variable {ι : Type} {s s' : Service ι} {tag : ι}

/-- Recomputed limits stay in the account's group. -/
def Grouped (s : Service ι) : Prop :=
  ∀ fn, s.limitsFn = some fn → ∀ balance loss,
    some (fn balance loss).group = s.engine.group s.account

/-- The account, how its limits are computed and its record are as they were. -/
structure Keeps (s s' : Service ι) : Prop where
  account : s'.account = s.account
  limitsFn : s'.limitsFn = s.limitsFn
  group : s'.engine.group s'.account = s.engine.group s.account
  book : s'.book = s.book

theorem Keeps.refl (s : Service ι) : Keeps s s := ⟨rfl, rfl, rfl, rfl⟩

theorem Keeps.trans {s'' : Service ι} (h : Keeps s s') (h' : Keeps s' s'') : Keeps s s'' :=
  ⟨h'.account.trans h.account, h'.limitsFn.trans h.limitsFn, h'.group.trans h.group,
    h'.book.trans h.book⟩

/-- Limits computed as before stay in the group they were in. -/
theorem Keeps.grouped (h : Keeps s s') (hs : s.Grouped) : s'.Grouped := by
  intro fn hfn balance loss
  rw [h.group]
  exact hs fn (h.limitsFn ▸ hfn) balance loss

/-- An engine with the account's limits and record can take the place of the service's. -/
theorem keeps_engine {engine : Engine} (hlimits : engine.limits = s.engine.limits)
    (hbook : engine.book s.account = s.engine.book s.account) : Keeps s { s with engine } :=
  ⟨rfl, rfl, by simp only [Engine.group, hlimits], hbook⟩

/-- Reading the balance keeps the record. -/
theorem refreshLimits_keeps (hs : s.Grouped) (now : Time) (balance : D) :
    Keeps s (s.refreshLimits now balance) := by
  unfold refreshLimits
  split
  · exact ⟨rfl, rfl, rfl, rfl⟩
  · next fn hfn =>
    -- the snapshot keeps the record, and so does installing limits of the same group
    have hsnap : (s.engine.snapshot now s.account).1.group s.account =
        s.engine.group s.account := rfl
    have hbook : (s.engine.snapshot now s.account).1.book s.account = s.engine.book s.account :=
      Engine.book_putState.trans Engine.stateOf_book
    simp only
    split
    · next engine hset =>
      obtain ⟨hg, hb⟩ := Engine.setLimits_frame hset ((hs fn hfn _ _).trans hsnap.symm)
      exact ⟨rfl, rfl, hg.trans hsnap, hb.trans hbook⟩
    · exact ⟨rfl, rfl, hsnap, hbook⟩

/-- Refreshing the limits before an order keeps the record. -/
theorem refreshLimitsForOrder_keeps (hs : s.Grouped) (now : Time) (a : Except VenueError D) :
    Keeps s (s.refreshLimitsForOrder now a) := by
  unfold refreshLimitsForOrder
  split
  · exact .refl s
  · split
    · exact refreshLimits_keeps hs now _
    · exact refreshLimits_keeps hs now _
    · exact .refl s

/-- Asking the engine keeps the record. -/
theorem admitOpen_keeps {a : OpenAnswers} {req : OpenRequest} (hs : s.Grouped) :
    Keeps s (s.admitOpen a req).1 := by
  unfold admitOpen
  split
  · exact .refl s
  · have hr := refreshLimitsForOrder_keeps hs a.before a.balance
    dsimp only
    split
    · next hauth =>
      obtain ⟨hlimits, hbook⟩ := Engine.authorize_frame hauth
      exact hr.trans (keeps_engine hlimits hbook)
    · next hauth =>
      obtain ⟨hlimits, hbook⟩ := Engine.authorize_frame hauth
      exact hr.trans (keeps_engine hlimits hbook)

/-- A checked request the engine grants is admitted. -/
theorem admitOpen_granted {a : OpenAnswers} {req checked : OpenRequest}
    (hcheck : req.check = .ok checked)
    (hgrant : ((s.refreshLimitsForOrder a.before a.balance).engine.authorize a.before
      (Policy.fromOrder (s.refreshLimitsForOrder a.before a.balance).account
        (checked.order a.clientID))).2 = none) :
    (s.admitOpen a req).2 = .ok checked := by
  unfold admitOpen
  rw [hcheck]
  dsimp only
  split
  · next hauth =>
    rw [hauth] at hgrant
    cases hgrant
  · rfl

/-- Asking the engine for a close keeps the record. -/
theorem admitClose_keeps {a : CloseAnswers} {symbol : String} :
    Keeps s (s.admitClose a symbol).1 := by
  have hd : Keeps s (s.disarm symbol a.deletes) := ⟨rfl, rfl, rfl, rfl⟩
  unfold admitClose
  simp only
  split
  · exact hd
  · split
    · exact hd
    · split
      · next hauth =>
        obtain ⟨hlimits, hbook⟩ := Engine.authorize_frame hauth
        exact hd.trans (keeps_engine hlimits hbook)
      · next hauth =>
        obtain ⟨hlimits, hbook⟩ := Engine.authorize_frame hauth
        exact hd.trans (keeps_engine hlimits hbook)

/-- A close that reaches the venue is of a position it reported. -/
theorem admitClose_position {a : CloseAnswers} {symbol : String} {pos : Position}
    (h : (s.admitClose a symbol).2 = .ok pos) :
    ∃ ps, a.positions = .ok ps ∧ pos ∈ ps ∧ pos.symbol = symbol := by
  unfold admitClose at h
  simp only at h
  split at h
  · cases h
  · next ps hps =>
    split at h
    · cases h
    · next p hp =>
      split at h
      · cases h
      · obtain rfl : p = pos := Except.ok.inj h
        exact ⟨ps, hps, List.mem_of_find?_eq_some hp, by simpa using List.find?_some hp⟩

/-- A request that is not admitted leaves what asking left. -/
theorem openPosition_denied {a : OpenAnswers} {req : OpenRequest} {e : Error}
    (h : (s.admitOpen a req).2 = .error e) :
    (s.openPosition a tag req).1 = (s.admitOpen a req).1 := by
  simp only [openPosition, h]

/-- What an admitted request comes to once the venue has answered. -/
theorem openPosition_admitted {a : OpenAnswers} {req r : OpenRequest}
    (h : (s.admitOpen a req).2 = .ok r) :
    (s.openPosition a tag req).1 =
      match a.place (r.order a.clientID) with
      | .error _ => (s.admitOpen a req).1
      | .ok placed => if placed.status = .failed then (s.admitOpen a req).1
          else ((s.admitOpen a req).1.settleOpen a tag r placed).1 := by
  simp only [openPosition, h]
  generalize (s.admitOpen a req).1 = admitted
  cases a.place (r.order a.clientID) with
  | error e => rfl
  | ok placed => exact apply_ite Prod.fst _ _ _

/-- A close that is not admitted leaves what asking left. -/
theorem close_denied {a : CloseAnswers} {symbol : String} {reason : CloseReason} {e : Error}
    (h : (s.admitClose a symbol).2 = .error e) :
    (s.close a symbol reason).1 = (s.admitClose a symbol).1 := by
  simp only [close, h]

/-- What an admitted close comes to once the venue has answered. -/
theorem close_admitted {a : CloseAnswers} {symbol : String} {reason : CloseReason} {pos : Position}
    (h : (s.admitClose a symbol).2 = .ok pos) :
    (s.close a symbol reason).1 =
      match a.place (closeOrder symbol pos a.clientID) with
      | .error _ => (s.admitClose a symbol).1
      | .ok placed => if placed.status = .failed then (s.admitClose a symbol).1
          else ((s.admitClose a symbol).1.settleClose a symbol reason pos placed).1 := by
  simp only [close, h]
  generalize (s.admitClose a symbol).1 = admitted
  cases a.place (closeOrder symbol pos a.clientID) with
  | error e => rfl
  | ok placed => exact apply_ite Prod.fst _ _ _

/-- An order the venue took is recorded with what it opened. -/
theorem settleOpen_book {a : OpenAnswers} {req : OpenRequest} {placed : Order} {opened : D}
    (h : openedNotional req.notional placed = some opened) :
    Keeps { s with engine := s.engine.recordOpen a.after s.account opened }
      (s.settleOpen a tag req placed).1 := by
  unfold settleOpen
  rw [h]
  dsimp only
  split
  · split
    · exact .refl _
    · exact ⟨rfl, rfl, rfl, rfl⟩
  · exact ⟨rfl, rfl, rfl, rfl⟩

/-- An order that closed a position is recorded with the position's notional. -/
theorem settleClose_book {a : CloseAnswers} {symbol : String} {reason : CloseReason}
    {pos : Position} {placed : Order} {notional pnl : D}
    (hn : Fixed.mul pos.entryPrice pos.size = some notional)
    (hp : realizedPnL pos placed = some pnl) :
    Keeps { s with engine := s.engine.recordClose a.after s.account notional pnl }
      (s.settleClose a symbol reason pos placed).1 := by
  unfold settleClose
  rw [hn, hp]
  exact ⟨rfl, rfl, rfl, rfl⟩

end Service

/-! ## Positions, one a market -/

section Netted

variable {ps after : List Position} {p : Position} {symbol : String}

/-- A netted list is one of its positions and those of the other markets. -/
theorem Netted.perm (h : Netted ps) (hp : p ∈ ps) :
    ps.Perm (p :: ps.filter (·.symbol ≠ p.symbol)) := by
  obtain ⟨l, r, rfl⟩ := List.append_of_mem hp
  have hnodup : ∀ q ∈ l ++ r, q.symbol ≠ p.symbol := by
    have hsym : (p.symbol :: (l.map Position.symbol ++ r.map Position.symbol)).Nodup :=
      List.nodup_middle.mp (by simpa [Netted] using h)
    intro q hq heq
    refine (List.nodup_cons.mp hsym).1 ?_
    rw [← heq, ← List.map_append]
    exact List.mem_map_of_mem hq
  have hkeep : (l ++ p :: r).filter (·.symbol ≠ p.symbol) = l ++ r := by
    rw [List.filter_append, List.filter_cons, if_neg (by simp), ← List.filter_append]
    exact List.filter_eq_self.mpr fun q hq => by simpa using hnodup q hq
  rw [hkeep]
  exact List.perm_middle

/-- A market that is flat on both sides of an order is untouched by it. -/
theorem AgreeOutside.closed (h : AgreeOutside symbol ps after)
    (hflat : ∀ q ∈ after, q.symbol ≠ symbol) : after = ps.filter (·.symbol ≠ symbol) := by
  rw [← h]
  exact (List.filter_eq_self.mpr fun q hq => by simpa using hflat q hq).symm

end Netted

/-! ## Runs in which the engine mirrors the venue -/

/-- What a position is booked at: its market, entry price and size. -/
def Position.key (p : Position) : String × D × D := (p.symbol, p.entryPrice, p.size)

/-- The order opened exactly what the venue reported, in a market that was flat. -/
structure OpensAsReported (w : Mirror) (req : OpenRequest) (placed : Order)
    (after : List Position) : Prop where
  flat : ∀ p ∈ w.positions, p.symbol ≠ req.symbol
  filled : 0 < placed.filledSize
  priced : 0 < placed.avgPrice
  held : ∃ p ∈ after, p.symbol = req.symbol ∧ p.size = placed.filledSize ∧
    p.entryPrice = placed.avgPrice
  booked : ∃ n, Fixed.mul placed.avgPrice placed.filledSize = some n ∧ 0 < n ∧
    Fixed.Fits (w.service.book.exposure.toInt + n.toInt)

/-- The order did what its answer says: nothing when it was refused, failed or lost, all of it
otherwise; and the venue changes no position on its own. -/
def Clean (w : Mirror) : MirrorAction → Prop
  | .opened a req after => ∀ r, (w.service.admitOpen a req).2 = .ok r →
      match a.place (r.order a.clientID) with
      | .error _ => after = w.positions
      | .ok placed => if placed.status = .failed then after = w.positions
          else OpensAsReported w r placed after
  | .closed a symbol _ after => ∀ pos, (w.service.admitClose a symbol).2 = .ok pos →
      match a.place (closeOrder symbol pos a.clientID) with
      | .error _ => after = w.positions
      | .ok placed => if placed.status = .failed then after = w.positions
          else (∀ p ∈ after, p.symbol ≠ symbol) ∧ realizedPnL pos placed ≠ none
  | .venue after => after.map Position.key = w.positions.map Position.key

/-- An account that trades nothing yet. -/
structure Mirror.Flat (w : Mirror) : Prop where
  grouped : w.service.Grouped
  openPositions : w.service.book.openPositions = 0
  exposure : w.service.book.exposure = 0
  positions : w.positions = []

/-- The engine's count and exposure, position by position. -/
structure Mirror.Sound (w : Mirror) : Prop where
  grouped : w.service.Grouped
  netted : Netted w.positions
  priced : ∀ p ∈ w.positions, 0 < notionalOf p
  openPositions : w.service.book.openPositions = w.positions.length
  exposure : w.service.book.exposure.toInt = (w.positions.map notionalOf).sum

theorem Mirror.Flat.sound {w : Mirror} (h : w.Flat) : w.Sound where
  grouped := h.grouped
  netted := by simp [Netted, h.positions]
  priced := by simp [h.positions]
  openPositions := by simp [h.openPositions, h.positions]
  exposure := by simp [h.exposure, h.positions]

/-- The engine's view is the venue's wherever each position is booked. -/
theorem Mirror.Sound.agrees {w : Mirror} (h : w.Sound) : w.Agrees where
  openPositions := h.openPositions
  exposure := by
    have hexp := h.exposure
    constructor
    · intro hz
      rw [hz, Int64.toInt_zero] at hexp
      cases hps : w.positions with
      | nil => rfl
      | cons p ps =>
        have hpos := h.priced
        rw [hps] at hexp hpos
        have hrest : 0 ≤ (ps.map notionalOf).sum := by
          refine List.sum_nonneg fun v hv => ?_
          obtain ⟨q, hq, rfl⟩ := List.mem_map.mp hv
          exact (hpos q (List.mem_cons_of_mem _ hq)).le
        have := hpos p List.mem_cons_self
        simp only [List.map_cons, List.sum_cons] at hexp
        omega
    · intro hz
      rw [hz, List.map_nil, List.sum_nil] at hexp
      exact Int64.toInt_inj.mp (hexp.trans Int64.toInt_zero.symm)

section Step

variable {w : Mirror} {after : List Position}

/-- Nothing recorded and nothing held has changed. -/
theorem Mirror.Sound.keeps {s' : Service Unit} (h : w.Sound) (hk : Service.Keeps w.service s') :
    Mirror.Sound ⟨s', w.positions⟩ where
  grouped := hk.grouped h.grouped
  netted := h.netted
  priced := h.priced
  openPositions := hk.book ▸ h.openPositions
  exposure := hk.book ▸ h.exposure

/-- A position opened as reported is booked for what it is. -/
theorem Mirror.Sound.opened {s' : Service Unit} {req : OpenRequest} {a : OpenAnswers}
    {placed : Order} (h : w.Sound) (hk : Service.Keeps w.service s') (hnetted : Netted after)
    (hagree : AgreeOutside req.symbol w.positions after)
    (ho : OpensAsReported w req placed after) :
    Mirror.Sound ⟨(s'.settleOpen a () req placed).1, after⟩ := by
  obtain ⟨n, hmul, hpos, hfits⟩ := ho.booked
  obtain ⟨p, hp, hsymbol, hsize, hprice⟩ := ho.held
  have hopened : openedNotional req.notional placed = some n := by
    rw [openedNotional, if_pos ⟨ho.filled, ho.priced⟩, hmul]
  have hnotional : notionalOf p = n.toInt := by
    rw [notionalOf, hprice, hsize, hmul]
    rfl
  -- the new list is the old one and the new position
  have hperm : after.Perm (p :: w.positions) := by
    have hsplit := hnetted.perm hp
    have hold : w.positions.filter (·.symbol ≠ p.symbol) = w.positions :=
      List.filter_eq_self.mpr fun q hq => by simpa [hsymbol] using ho.flat q hq
    rw [AgreeOutside, ← hsymbol] at hagree
    rwa [hagree, hold] at hsplit
  have hsum : (after.map notionalOf).sum = n.toInt + (w.positions.map notionalOf).sum := by
    rw [(hperm.map notionalOf).sum_eq, List.map_cons, List.sum_cons, hnotional]
  have hset : Service.Keeps _ (s'.settleOpen a () req placed).1 :=
    Service.settleOpen_book hopened
  have hbook : (s'.settleOpen a () req placed).1.book =
      ⟨some a.after, w.service.book.openPositions + 1, w.service.book.exposure + n⟩ := by
    rw [hset.book, ← hk.book]
    exact Engine.recordOpen_book
  have hn := Int64.lt_iff_toInt_lt.mp hpos
  rw [Int64.toInt_zero] at hn
  refine ⟨?_, hnetted, ?_, ?_, ?_⟩
  · exact hset.grouped (hk.grouped h.grouped)
  · intro q hq
    rcases List.mem_cons.mp (hperm.subset hq) with rfl | hq
    · rw [hnotional]
      exact hn
    · exact h.priced q hq
  · rw [hbook, hperm.length_eq, List.length_cons]
    have := h.openPositions
    push_cast
    omega
  · rw [hbook, hsum, ← h.exposure]
    exact (Fixed.toInt_add_of_fits hfits).trans (Int.add_comm _ _)

/-- A position closed in full leaves the others booked for what they are. -/
theorem Mirror.Sound.closed {s' : Service Unit} {a : CloseAnswers} {symbol : String}
    {reason : CloseReason} {pos : Position} {placed : Order} (h : w.Sound)
    (hk : Service.Keeps w.service s') (hnetted : Netted after) (hpos : pos ∈ w.positions)
    (hsymbol : pos.symbol = symbol) (hagree : AgreeOutside symbol w.positions after)
    (hflat : ∀ p ∈ after, p.symbol ≠ symbol) (hpnl : realizedPnL pos placed ≠ none) :
    Mirror.Sound ⟨(s'.settleClose a symbol reason pos placed).1, after⟩ := by
  obtain ⟨pnl, hpnl⟩ := Option.ne_none_iff_exists'.mp hpnl
  have hpriced := h.priced pos hpos
  obtain ⟨n, hmul⟩ : ∃ n, Fixed.mul pos.entryPrice pos.size = some n := by
    cases hmul : Fixed.mul pos.entryPrice pos.size with
    | some n => exact ⟨n, rfl⟩
    | none =>
      rw [notionalOf, hmul] at hpriced
      exact absurd hpriced (lt_irrefl 0)
  have hnotional : notionalOf pos = n.toInt := by
    rw [notionalOf, hmul]
    rfl
  have hperm : w.positions.Perm (pos :: after) := by
    rw [hagree.closed hflat, ← hsymbol]
    exact h.netted.perm hpos
  have hrest : ∀ q ∈ after, 0 < notionalOf q :=
    fun q hq => h.priced q (hperm.mem_iff.mpr (List.mem_cons_of_mem _ hq))
  have hsum : w.service.book.exposure.toInt = n.toInt + (after.map notionalOf).sum := by
    rw [h.exposure, (hperm.map notionalOf).sum_eq, List.map_cons, List.sum_cons, hnotional]
  have hcount : w.service.book.openPositions = after.length + 1 := by
    rw [h.openPositions, hperm.length_eq, List.length_cons]
    push_cast
    rfl
  have hnonneg : 0 ≤ (after.map notionalOf).sum := by
    refine List.sum_nonneg fun v hv => ?_
    obtain ⟨q, hq, rfl⟩ := List.mem_map.mp hv
    exact (hrest q hq).le
  have hset : Service.Keeps _ (s'.settleClose a symbol reason pos placed).1 :=
    Service.settleClose_book hmul hpnl
  have hbook : (s'.settleClose a symbol reason pos placed).1.book = _ :=
    hset.book.trans Engine.recordClose_book
  have hsame : s'.engine.book s'.account = w.service.book := hk.book
  rw [hsame] at hbook
  have hleft : (if 0 < w.service.book.openPositions then w.service.book.openPositions - 1
      else w.service.book.openPositions) = after.length := by
    rw [hcount, if_pos (by omega)]
    omega
  simp only [hleft] at hbook
  have hsub : (w.service.book.exposure - n).toInt = (after.map notionalOf).sum := by
    have htop := Int64.toInt_lt w.service.book.exposure
    rw [Fixed.toInt_sub_of_fits ⟨by omega, by omega⟩]
    omega
  refine ⟨hset.grouped (hk.grouped h.grouped), hnetted, hrest, ?_, ?_⟩
  · rw [hbook]
  · rw [hbook]
    dsimp only
    split
    · next hzero =>
      rcases hzero with hneg | hempty
      · have := Int64.lt_iff_toInt_lt.mp hneg
        rw [hsub, Int64.toInt_zero] at this
        omega
      · have hnil : after = [] := List.length_eq_zero_iff.mp (by omega)
        rw [hnil]
        rfl
    · exact hsub

/-- Positions with the same markets, prices and sizes are booked alike. -/
theorem Mirror.Sound.revalued (h : w.Sound) (hnetted : Netted after)
    (hkeys : after.map Position.key = w.positions.map Position.key) :
    Mirror.Sound { w with positions := after } := by
  have hlen : after.length = w.positions.length := by
    simpa using congrArg List.length hkeys
  have hmap : after.map notionalOf = w.positions.map notionalOf := by
    have := congrArg
      (List.map fun k : String × D × D => ((Fixed.mul k.2.1 k.2.2).map Int64.toInt).getD 0) hkeys
    rw [List.map_map, List.map_map] at this
    exact this
  refine ⟨h.grouped, hnetted, fun p hp => ?_, ?_, ?_⟩
  · have hmem : notionalOf p ∈ w.positions.map notionalOf := hmap ▸ List.mem_map_of_mem hp
    obtain ⟨q, hq, heq⟩ := List.mem_map.mp hmem
    exact heq ▸ h.priced q hq
  · rw [hlen]
    exact h.openPositions
  · rw [hmap]
    exact h.exposure

/-- Every clean operation keeps the engine's books right. -/
theorem Mirror.Sound.step {w' : Mirror} {act : MirrorAction} (h : w.Sound) (hclean : Clean w act)
    (hs : Mirror.Step w act w') : w'.Sound := by
  cases hs with
  | @opened a req after hnetted hdenied hagree =>
    have hk : Service.Keeps w.service (w.service.admitOpen a req).1 :=
      Service.admitOpen_keeps h.grouped
    cases hgate : (w.service.admitOpen a req).2 with
    | error e =>
      rw [Service.openPosition_denied hgate, hdenied e hgate]
      exact h.keeps hk
    | ok r =>
      rw [Service.openPosition_admitted hgate]
      have hc := hclean r hgate
      cases hplace : a.place (r.order a.clientID) with
      | error e =>
        rw [hplace] at hc
        rw [show after = w.positions from hc]
        exact h.keeps hk
      | ok placed =>
        rw [hplace] at hc
        dsimp only at hc ⊢
        by_cases hf : placed.status = .failed
        · rw [if_pos hf] at hc ⊢
          rw [hc]
          exact h.keeps hk
        · rw [if_neg hf] at hc ⊢
          exact h.opened hk hnetted (hagree r hgate) hc
  | @closed a symbol reason after hnetted hpositions hdenied hagree =>
    have hk : Service.Keeps w.service (w.service.admitClose a symbol).1 :=
      Service.admitClose_keeps
    cases hgate : (w.service.admitClose a symbol).2 with
    | error e =>
      rw [Service.close_denied hgate, hdenied e hgate]
      exact h.keeps hk
    | ok pos =>
      rw [Service.close_admitted hgate]
      obtain ⟨ps, hps, hmem, hsymbol⟩ := Service.admitClose_position hgate
      rw [hpositions ps hps] at hmem
      have hc := hclean pos hgate
      cases hplace : a.place (closeOrder symbol pos a.clientID) with
      | error e =>
        rw [hplace] at hc
        rw [show after = w.positions from hc]
        exact h.keeps hk
      | ok placed =>
        rw [hplace] at hc
        dsimp only at hc ⊢
        by_cases hf : placed.status = .failed
        · rw [if_pos hf] at hc ⊢
          rw [hc]
          exact h.keeps hk
        · rw [if_neg hf] at hc ⊢
          exact h.closed hk hnetted hmem hsymbol hagree hc.1 hc.2
  | venue hnetted => exact h.revalued hnetted hclean

end Step

/-- Over every run of clean operations from a flat account, the engine counts the venue's
positions, and its exposure is zero exactly when the venue is flat. -/
theorem engine_mirrors_venue {w₀ w : Mirror} {as : List MirrorAction} (h₀ : w₀.Flat)
    (h : Run Mirror.Step Clean w₀ as w) : w.Agrees :=
  (h.invariant h₀.sound fun _ _ _ ht hok hs => ht.step hok hs).agrees

/-! ## An order that fills nothing -/

/-- A service on an account that may hold one position. -/
def started : Service Unit where
  account := "0xa"
  engine := idle.engine
  exits := .empty
  keepsLedger := true
  ledger := []
  keepsRows := true
  lastClose := none
  limitsFn := none
  balance := none

theorem started_flat : Mirror.Flat ⟨started, []⟩ := ⟨nofun, rfl, rfl, rfl⟩

/-- The venue answers an opening order as given. -/
def answering (placed : Order) : OpenAnswers := ⟨"1", 0, 0, .ok 0, fun _ => .ok placed, true⟩

/-- The position of a filled tap. -/
def tapped : Position := ⟨"BTC", .long, Fixed.fromInt 60, Fixed.fromInt 1, 0, 0, 0, 0⟩

/-- The position is closed as it was opened. -/
def closing : CloseAnswers := ⟨"2", 0, 0, true, .ok [tapped], fun _ => .ok filled⟩

/-- After a tap that filled. -/
def holding : Mirror := ⟨(started.openPosition (answering filled) () tap).1, [tapped]⟩

/-- What the tap places is its checked request. -/
theorem admitted_tap (placed : Order) :
    (started.admitOpen (answering placed) tap).2 = .ok checkedTap := by
  have hcheck : tap.check = .ok checkedTap := rfl
  have hgrant : (idle.engine.authorize 0
      (Policy.fromOrder "0xa" (checkedTap.order "1"))).2 = none := rfl
  exact Service.admitOpen_granted hcheck hgrant

/-- A tap that fills, and its close. -/
theorem engine_mirrors_tap : ∃ w as, Run Mirror.Step Clean ⟨started, []⟩ as w ∧ w.Agrees := by
  have hopen : Mirror.Step ⟨started, []⟩ (.opened (answering filled) tap [tapped]) holding := by
    refine .opened (List.nodup_singleton _) nofun fun r hr => ?_
    obtain rfl := Except.ok.inj ((admitted_tap filled).symm.trans hr)
    rfl
  have hcleanOpen : Clean ⟨started, []⟩ (.opened (answering filled) tap [tapped]) := by
    intro r hr
    obtain rfl := Except.ok.inj ((admitted_tap filled).symm.trans hr)
    exact ⟨nofun, by decide, by decide, ⟨tapped, List.mem_cons_self, rfl, rfl, rfl⟩,
      Fixed.fromInt 60, rfl, by decide, by decide⟩
  have hclose : Mirror.Step holding (.closed closing "BTC" .manual [])
      ⟨(holding.service.close closing "BTC" .manual).1, []⟩ :=
    .closed List.nodup_nil (fun _ h => (Except.ok.inj h).symm) nofun rfl
  have hcleanClose : Clean holding (.closed closing "BTC" .manual []) := by
    intro pos hpos
    rw [← Except.ok.inj hpos]
    exact ⟨nofun, by decide⟩
  have h := (Run.nil.snoc hcleanOpen hopen).snoc hcleanClose hclose
  exact ⟨_, _, h, engine_mirrors_venue started_flat h⟩

/-- A tap the venue cancels without filling any of it. -/
def unfilled : Order := ⟨"1", .canceled, 0, 0, 0, 0⟩

/-- The engine counts a position although the venue holds none. -/
theorem unfilled_counts : ∃ w as, Run Mirror.Step Always ⟨started, []⟩ as w ∧
    w.positions = [] ∧ w.service.book.openPositions = 1 ∧ w.service.book.exposure ≠ 0 := by
  have hstep : Mirror.Step ⟨started, []⟩ (.opened (answering unfilled) tap [])
      ⟨(started.openPosition (answering unfilled) () tap).1, []⟩ :=
    .opened List.nodup_nil (fun _ _ => rfl) fun _ _ => rfl
  exact ⟨_, _, Run.nil.snoc trivial hstep, rfl, by rfl, by decide⟩

end SuperAgent.Platform
