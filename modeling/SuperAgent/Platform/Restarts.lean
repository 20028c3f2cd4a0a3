import SuperAgent.Platform.Signals

/-!
# Seeding and applying

A signal is seeded with the bars its history holds, and finds in them what it
can; fed bar by bar it looked back from each bar as far as the history reached
then. What either remembers last may differ, and with it what is offered.
-/

namespace SuperAgent.Strategy

open Fixed (D)
open Venue (Side)

/-! ## What is kept -/

/-- The bars of a list, each applied. -/
def applied (xs : List Candle) (now : Time) : List Event := xs.map fun b => .apply b now

section Kept

variable {xs l : List Candle} {b : Candle} {now : Time}

/-- Closed bars in order are all kept. -/
theorem foldl_keep (hclosed : ∀ b ∈ l, b.Closed now)
    (hsorted : (xs ++ l).Pairwise fun a b => a.open < b.open) : l.foldl (keep now) xs = xs ++ l := by
  induction l generalizing xs with
  | nil => exact (List.append_nil xs).symm
  | cons b l ih =>
    have hfollows : Follows xs b := by
      intro last hlast
      exact (List.pairwise_append.mp hsorted).2.2 last (List.mem_of_getLast? hlast) b
        List.mem_cons_self
    rw [List.append_cons] at hsorted
    rw [List.foldl_cons, keep, if_pos ⟨hclosed b List.mem_cons_self, hfollows⟩,
      ih (fun a ha => hclosed a (List.mem_cons_of_mem b ha)) hsorted, ← List.append_cons]

theorem accepted_applied (hclosed : ∀ b ∈ xs, b.Closed now)
    (hsorted : xs.Pairwise fun a b => a.open < b.open) : accepted (applied xs now) = xs := by
  rw [accepted, applied, List.foldl_map]
  exact foldl_keep hclosed hsorted

/-- A list in strict order is sorted in one way. -/
theorem Seeding.sorted_eq (s : Seeding) (hsorted : s.bars.Pairwise fun a b => a.open < b.open) :
    s.sorted = s.bars := by
  apply s.perm.eq_of_pairwise _ s.ascending (hsorted.imp fun h => h.le)
  intro a b ha hb hab hba
  obtain ⟨i, hi, rfl⟩ := List.getElem_of_mem (s.perm.mem_iff.mp ha)
  obtain ⟨j, hj, rfl⟩ := List.getElem_of_mem hb
  rcases lt_trichotomy i j with hlt | rfl | hlt
  · exact absurd (List.pairwise_iff_getElem.mp hsorted i j hi hj hlt) (not_lt.mpr hba)
  · rfl
  · exact absurd (List.pairwise_iff_getElem.mp hsorted j i hj hi hlt) (not_lt.mpr hab)

theorem Seeding.closed_eq (s : Seeding) (hclosed : ∀ b ∈ s.bars, b.Closed now)
    (hsorted : s.bars.Pairwise fun a b => a.open < b.open) : s.closed now = s.bars := by
  rw [Seeding.closed, s.sorted_eq hsorted]
  exact foldl_keep hclosed hsorted

/-- Closed bars leave no bar forming. -/
theorem Seeding.forming_eq_none (s : Seeding) (hclosed : ∀ b ∈ s.bars, b.Closed now) :
    s.forming now = none := by
  have hfold : ∀ l : List Candle, (∀ b ∈ l, b.Closed now) →
      l.foldl (fun f b => if b.Closed now then f else some b) (none : Option Candle) = none := by
    intro l
    induction l with
    | nil => exact fun _ => rfl
    | cons b l ih =>
      intro h
      rw [List.foldl_cons, if_pos (h b List.mem_cons_self)]
      exact ih fun a ha => h a (List.mem_cons_of_mem b ha)
  exact hfold s.sorted fun b hb => hclosed b (s.perm.mem_iff.mp hb)

theorem formingAfter_none (bars : List Candle) (hclosed : b.Closed now) :
    formingAfter none bars b now = none := by
  rw [formingAfter, if_neg (not_not.mpr hclosed)]
  split <;> rfl

end Kept

namespace MACrossConfig

variable {c : MACrossConfig} {bars xs : List Candle} {i n : ℕ} {now : Time}

/-! ## No average panics -/

/-- Both averages are of two bars or more, and of no more than fit. -/
structure Moderate (c : MACrossConfig) : Prop where
  fast : 2 ≤ c.fast
  slow : 2 ≤ c.slow
  fast_fits : c.fast * 10 ^ 8 < 2 ^ 63
  slow_fits : c.slow * 10 ^ 8 < 2 ^ 63

theorem Moderate.averages (h : c.Moderate) (bars : List Candle) (i : ℕ) :
    (∃ fast, averageAt bars i c.fast = some fast) ∧ ∃ slow, averageAt bars i c.slow = some slow :=
  ⟨Option.isSome_iff_exists.mp (Fixed.div_fromInt_isSome _ h.fast h.fast_fits),
    Option.isSome_iff_exists.mp (Fixed.div_fromInt_isSome _ h.slow h.slow_fits)⟩

theorem Moderate.spreadAt (h : c.Moderate) (bars : List Candle) (i : ℕ) :
    ∃ spread, c.spreadAt bars i = some spread := by
  obtain ⟨⟨fast, hfast⟩, slow, hslow⟩ := h.averages bars i
  unfold MACrossConfig.spreadAt
  rw [hfast, hslow]
  split <;> exact ⟨_, rfl⟩

theorem Moderate.apartBefore (h : c.Moderate) (bars : List Candle) (i : ℕ) :
    ∃ apart, c.apartBefore bars i = some apart := by
  induction i with
  | zero => exact ⟨_, rfl⟩
  | succ i ih =>
    obtain ⟨spread, hspread⟩ := h.spreadAt bars i
    rw [MACrossConfig.apartBefore, hspread, Option.bind_some]
    split_ifs
    · exact ⟨_, rfl⟩
    · exact ih
    · exact ⟨_, rfl⟩

theorem Moderate.crossAt (h : c.Moderate) (bars : List Candle) (i : ℕ) :
    ∃ cross, c.crossAt bars i = some cross := by
  obtain ⟨spread, hspread⟩ := h.spreadAt bars i
  obtain ⟨apart, hapart⟩ := h.apartBefore bars i
  rw [MACrossConfig.crossAt, hspread, hapart, Option.bind_some]
  split_ifs <;> exact ⟨_, rfl⟩

theorem Moderate.replay (h : c.Moderate) (bars : List Candle) (n : ℕ) :
    ∃ crosses, c.replay bars n = some crosses := by
  induction n with
  | zero => exact ⟨_, rfl⟩
  | succ n ih =>
    obtain ⟨found, hfound⟩ := ih
    obtain ⟨cross, hcross⟩ := h.crossAt bars n
    rw [MACrossConfig.replay, hfound, Option.bind_some, hcross]
    exact ⟨_, rfl⟩

/-- Applying closed bars never panics, and leaves no bar forming. -/
theorem Moderate.run_applied (h : c.Moderate) (hclosed : ∀ b ∈ xs, b.Closed now) :
    ∃ m, c.run (applied xs now) = some m ∧ m.forming = none := by
  induction xs using List.reverseRecOn with
  | nil => exact ⟨{}, rfl, rfl⟩
  | append_singleton xs b ih =>
    obtain ⟨m, hm, hforming⟩ := ih fun a ha => hclosed a (List.mem_append_left _ ha)
    have hb := hclosed b (List.mem_append_right _ List.mem_cons_self)
    have happend : applied (xs ++ [b]) now = applied xs now ++ [.apply b now] := by
      rw [applied, List.map_append]
      rfl
    rw [happend, run, foldlM_concat, ← run, hm, Option.bind_some]
    change ∃ m', c.apply m b now = some m' ∧ m'.forming = none
    unfold apply
    dsimp only
    rw [hforming, formingAfter_none m.bars hb]
    split_ifs
    · obtain ⟨cross, hcross⟩ := h.crossAt ((m.bars ++ [b]).rtake c.history)
        (((m.bars ++ [b]).rtake c.history).length - 1)
      rw [hcross]
      exact ⟨_, rfl, rfl⟩
    · exact ⟨_, rfl, rfl⟩

/-- A signal is shown by its bars, its forming bar and its last cross. -/
theorem Moderate.state (h : c.Moderate) (bars : List Candle) : ∃ points trend,
    ∀ m : MACross, m.bars = bars → ∀ now, c.state m now = some
      { symbol := c.symbol, period := c.period, fast := c.fast, slow := c.slow
        points := points ++ (m.forming.map fun f => ⟨f.open, f.o, f.h, f.l, f.c, 0, 0⟩).toList
        forming := m.forming.isSome, trend
        window := m.last.bind fun x => offered c.window x.side x.closedAt now
        lastCross := m.last, ready := c.slow ≤ m.bars.length } := by
  have hpoint : ∀ p ∈ bars.zipIdx, (c.pointAt bars p.2 p.1).isSome := by
    intro p _
    obtain ⟨⟨fast, hfast⟩, slow, hslow⟩ := h.averages bars p.2
    unfold pointAt
    rw [hfast, hslow]
    split_ifs <;> rfl
  obtain ⟨points, hpoints⟩ := mapM_eq_some hpoint
  obtain ⟨trend, htrend⟩ : ∃ trend, c.trendOf bars = some trend := by
    obtain ⟨spread, hspread⟩ := h.spreadAt bars (bars.length - 1)
    rw [trendOf, hspread]
    split <;> exact ⟨_, rfl⟩
  refine ⟨points, trend, ?_⟩
  rintro m rfl now
  unfold MACrossConfig.state
  rw [hpoints, htrend]
  rfl

/-! ## What is found -/

/-- The cross that applying the bars finds at a position. -/
def crossFound (c : MACrossConfig) (xs : List Candle) (i : ℕ) : Option Cross :=
  if c.Found xs i then c.crossOf xs i else none

/-- The sign changes at a position from what it last was, as far as the bars a seed keeps reach
back. -/
def Replayed (c : MACrossConfig) (xs : List Candle) (i : ℕ) : Prop :=
  xs.length - c.history + c.slow ≤ i ∧ c.sign xs i ≠ 0 ∧
    lastApart (c.sign xs) (xs.length - c.history + (c.slow - 1)) i ≠ c.sign xs i

instance (xs : List Candle) (i : ℕ) : Decidable (c.Replayed xs i) :=
  inferInstanceAs (Decidable (_ ∧ _))

/-- The cross that replaying the bars a seed keeps finds at a position. -/
def crossReplayed (c : MACrossConfig) (xs : List Candle) (i : ℕ) : Option Cross :=
  if c.Replayed xs i then c.crossOf xs i else none

/-- The last cross is that of the last position where one is found. -/
theorem getLast?_foundIn (n : ℕ) : (c.foundIn xs n).getLast? = latest (c.crossFound xs) n := by
  induction n with
  | zero => rfl
  | succ n ih =>
    have hone : ∀ o : Option Cross, o.toList.getLast? = o := by
      intro o
      cases o <;> rfl
    rw [foundIn_succ, List.getLast?_append, ih, hone]
    rfl

/-- A seed remembers the last cross it finds in what it keeps. -/
theorem getLast?_foundIn_rtake (hvalid : c.validate = .ok ()) :
    (c.foundIn (xs.rtake c.history) (xs.rtake c.history).length).getLast? =
      latest (c.crossReplayed xs) xs.length := by
  obtain ⟨hfast, hslow, hroom⟩ := validate_eq_ok hvalid
  have hkept : (xs.rtake c.history).length = min c.history xs.length := length_rtake
  rw [getLast?_foundIn, latest_shift (xs.length - c.history),
    show xs.length - c.history + (xs.rtake c.history).length = xs.length by omega]
  apply latest_congr
  intro i hi
  have hsign : ∀ k, c.slow ≤ k + 1 → k < (xs.rtake c.history).length →
      c.sign (xs.rtake c.history) k = c.sign xs (xs.length - c.history + k) := by
    intro k hk hlt
    rw [sign, sign, spreadAt_rtake hvalid hlt hk]
  by_cases hearly : i < xs.length - c.history + c.slow
  · -- nothing is found before enough bars
    have hnone : c.crossReplayed xs i = none := if_neg fun h => absurd hearly (not_lt.mpr h.1)
    have hfound : c.crossFound (xs.rtake c.history) (i - (xs.length - c.history)) = none := by
      refine if_neg fun h => absurd h.1 ?_
      omega
    rw [hnone, hfound, ite_self]
  · obtain ⟨k, rfl⟩ := Nat.exists_eq_add_of_le (show xs.length - c.history ≤ i by omega)
    have hk := hsign k (by omega) (by omega)
    have hback : lastApart (c.sign (xs.rtake c.history)) (c.slow - 1) k =
        lastApart (c.sign xs) (xs.length - c.history + (c.slow - 1)) (xs.length - c.history + k) := by
      rw [lastApart_congr fun j hj hjk => hsign j (by omega) (by omega), lastApart_shift]
    have hiff : c.Found (xs.rtake c.history) k ↔ c.Replayed xs (xs.length - c.history + k) := by
      rw [found_iff_of_le hvalid (by omega), Replayed, hk, hback]
      refine and_congr_left fun _ => ?_
      omega
    rw [if_neg (by omega), Nat.add_sub_cancel_left, crossFound, crossReplayed, crossOf, crossOf,
      getElem?_rtake, hk]
    simp only [hiff]

/-- Whatever is found in the part that is replayed is found by replaying it. -/
theorem replayed_of_found (hi : i < xs.length) (hlate : xs.length - c.history + c.slow ≤ i)
    (h : c.Found xs i) : c.Replayed xs i := by
  obtain ⟨hslow, hapart, hchange⟩ := h
  refine ⟨hlate, hapart, fun heq => hchange ?_⟩
  have hne : lastApart (c.sign xs) (xs.length - c.history + (c.slow - 1)) i ≠ 0 := by
    rw [heq]
    exact hapart
  rw [lastApart_of_ne_zero (by omega) hne, heq]

/-- A cross found is one of its bar. -/
theorem crossOf_eq_some {x : Cross} (h : c.crossOf xs i = some x) :
    ∃ b, xs[i]? = some b ∧ x.closedAt = b.open.add c.period := by
  obtain ⟨b, hb, rfl⟩ := Option.map_eq_some_iff.mp h
  exact ⟨b, hb, rfl⟩

end MACrossConfig

/-! ## What is offered -/

section Offered

variable {xs : List Candle} {a b : Candle} {i j : ℕ} {window period : Duration} {now : Time}

theorem offered_ne_none_iff {side : Side} {closedAt : Time} :
    offered window side closedAt now ≠ none ↔ now < closedAt.add window := by
  rw [offered]
  split
  · next hlit => exact iff_of_true (Option.some_ne_none _) hlit
  · next hdark => exact iff_of_false (fun h => h rfl) hdark

/-- The offer of an earlier bar lapses before that of a later one. -/
theorem offered_lapse (hsorted : xs.Pairwise fun a b => a.open < b.open) (hij : i < j)
    (ha : xs[i]? = some a) (hb : xs[j]? = some b) {side side' : Side}
    (hlit : offered window side (a.open.add period) now ≠ none) :
    offered window side' (b.open.add period) now ≠ none ∧
      offered window side (a.open.add period) now ≠
        offered window side' (b.open.add period) now := by
  obtain ⟨hi, rfl⟩ := List.getElem?_eq_some_iff.mp ha
  obtain ⟨hj, rfl⟩ := List.getElem?_eq_some_iff.mp hb
  have hlt : xs[i].open.add period < xs[j].open.add period :=
    Int.add_lt_add_right (List.pairwise_iff_getElem.mp hsorted i j hi hj hij) _
  have hearly := offered_ne_none_iff.mp hlit
  have hlate : now < (xs[j].open.add period).add window :=
    hearly.trans (Int.add_lt_add_right hlt _)
  refine ⟨offered_ne_none_iff.mpr hlate, ?_⟩
  rw [offered, offered, if_pos hearly, if_pos hlate]
  intro heq
  exact hlt.ne (congrArg Window.openedAt (Option.some.inj heq))

end Offered

/-! ## What is shown -/

/-- Two pictures of the averages show the same bars and trend and offer the same entry. -/
structure MACrossState.Agrees (st st' : MACrossState) : Prop where
  points : st.points = st'.points
  trend : st.trend = st'.trend
  ready : st.ready = st'.ready
  window : st.window = st'.window

/-- Two pictures of the channel show the same bars and channel and offer the same entry. -/
structure DonchianState.Agrees (st st' : DonchianState) : Prop where
  points : st.points = st'.points
  upper : st.upper = st'.upper
  lower : st.lower = st'.lower
  ready : st.ready = st'.ready
  window : st.window = st'.window

section Agrees

variable {xs : List Candle} {now : Time} {s : Seeding}

namespace MACrossConfig

variable {c : MACrossConfig}

/-- A cross is offered that replaying finds and applying did not, or that applying found before
what is replayed. -/
def Misled (c : MACrossConfig) (xs : List Candle) (now : Time) : Prop :=
  ∃ x : Cross, (Spurious (c.crossFound xs) (c.crossReplayed xs) xs.length x ∨
    Stale (c.crossFound xs) (c.crossReplayed xs) xs.length x) ∧ now < x.closedAt.add c.window

/-- What is offered agrees exactly where nothing misleads. -/
theorem offer_eq_iff (hsorted : xs.Pairwise fun a b => a.open < b.open) :
    ((latest (c.crossReplayed xs) xs.length).bind fun x => offered c.window x.side x.closedAt now) =
      ((latest (c.crossFound xs) xs.length).bind fun x => offered c.window x.side x.closedAt now) ↔
        ¬ c.Misled xs now := by
  have hbefore : ∀ i < xs.length - c.history + c.slow, c.crossReplayed xs i = none :=
    fun i hi => if_neg fun h => absurd hi (not_lt.mpr h.1)
  have hafter : ∀ i, xs.length - c.history + c.slow ≤ i → i < xs.length → ∀ x,
      c.crossFound xs i = some x → c.crossReplayed xs i = some x := by
    intro i hlate hi x hx
    rw [crossFound] at hx
    by_cases hfound : c.Found xs i
    · rw [if_pos hfound] at hx
      rw [crossReplayed, if_pos (replayed_of_found hi hlate hfound), hx]
    · rw [if_neg hfound] at hx
      exact nomatch hx
  rw [latest_bind_eq_iff hbefore hafter]
  · rw [Misled]
    simp only [offered_ne_none_iff]
  · intro i j x y hij hj hx hy hlit
    have hxbar : ∃ b, xs[i]? = some b ∧ x.closedAt = b.open.add c.period := by
      rw [crossFound] at hx
      split_ifs at hx
      exact crossOf_eq_some hx
    have hybar : ∃ b, xs[j]? = some b ∧ y.closedAt = b.open.add c.period := by
      rw [crossReplayed] at hy
      split_ifs at hy
      exact crossOf_eq_some hy
    obtain ⟨a, ha, hclosedAt⟩ := hxbar
    obtain ⟨b, hb, hclosedAt'⟩ := hybar
    rw [hclosedAt] at hlit ⊢
    rw [hclosedAt']
    exact offered_lapse hsorted hij ha hb hlit

/-- Seeding with closed bars in order and applying them one by one show the same, exactly where no
cross misleads. -/
theorem agrees_iff (hvalid : c.validate = .ok ()) (hmoderate : c.Moderate)
    (hsorted : xs.Pairwise fun a b => a.open < b.open) (hclosed : ∀ b ∈ xs, b.Closed now)
    (hs : s.bars = xs) : (∃ m m' st st', c.seed s now = some m ∧
      c.run (applied xs now) = some m' ∧ c.state m now = some st ∧ c.state m' now = some st' ∧
        st.Agrees st') ↔ ¬ c.Misled xs now := by
  subst hs
  obtain ⟨crosses, hreplay⟩ :=
    hmoderate.replay (s.bars.rtake c.history) (s.bars.rtake c.history).length
  have hseed : c.seed s now = some ⟨s.bars.rtake c.history, none, crosses⟩ := by
    rw [seed, s.closed_eq hclosed hsorted, s.forming_eq_none hclosed, hreplay, Option.map_some]
  have hle : (s.bars.rtake c.history).length ≤ c.history := by
    rw [length_rtake]
    exact Nat.min_le_left _ _
  have hcrosses := replay_eq hvalid hle hreplay
  obtain ⟨m', hrun, hforming⟩ := hmoderate.run_applied hclosed
  obtain ⟨hbars, hcrosses'⟩ := run_spec hvalid hrun
  have hseen : c.seen (applied s.bars now) = s.bars := by
    rw [seen, applied, List.foldl_map]
    exact foldl_keep hclosed hsorted
  rw [hseen] at hbars hcrosses'
  obtain ⟨points, trend, hstate⟩ := hmoderate.state (s.bars.rtake c.history)
  have hst := hstate ⟨s.bars.rtake c.history, none, crosses⟩ rfl now
  have hst' := hstate m' hbars now
  rw [← offer_eq_iff hsorted, ← getLast?_foundIn_rtake hvalid, ← hcrosses, ← getLast?_foundIn,
    ← hcrosses']
  constructor
  · rintro ⟨m, m'', st, st', hm, hm', h, h', hagrees⟩
    obtain rfl := Option.some.inj (hseed.symm.trans hm)
    obtain rfl := Option.some.inj (hrun.symm.trans hm')
    obtain rfl := Option.some.inj (hst.symm.trans h)
    obtain rfl := Option.some.inj (hst'.symm.trans h')
    exact hagrees.window
  · intro hwindow
    refine ⟨_, m', _, _, hseed, hrun, hst, hst', ?_, rfl, ?_, hwindow⟩
    · dsimp only
      rw [hforming]
    · dsimp only
      rw [hbars]

end MACrossConfig

namespace DonchianConfig

variable {c : DonchianConfig}

/-- The breakout that replaying the bars a seed keeps finds at a position. -/
def breakReplayed (c : DonchianConfig) (xs : List Candle) (i : ℕ) : Option Break :=
  if i < xs.length - c.history + c.length then none else c.breakAt xs i

/-- A breakout is offered that applying found before what is replayed. -/
def Misled (c : DonchianConfig) (xs : List Candle) (now : Time) : Prop :=
  ∃ br : Break, Stale (c.breakAt xs) (c.breakReplayed xs) xs.length br ∧
    now < br.closedAt.add c.window

theorem breakAt_closedAt {i : ℕ} {br : Break} (h : c.breakAt xs i = some br) :
    ∃ b, xs[i]? = some b ∧ br.closedAt = b.open.add c.period := by
  rw [breakAt] at h
  cases hchannel : c.channelBefore xs i with
  | none =>
    rw [hchannel] at h
    cases h
  | some channel =>
    cases hb : xs[i]? with
    | none =>
      rw [hchannel, hb] at h
      cases h
    | some b =>
      rw [hchannel, hb] at h
      dsimp only at h
      refine ⟨b, rfl, ?_⟩
      split_ifs at h <;> rw [← Option.some.inj h]

/-- A seed remembers the last breakout it finds in what it keeps. -/
theorem latest_rtake (hvalid : c.validate = .ok ()) :
    latest (c.breakAt (xs.rtake c.history)) (xs.rtake c.history).length =
      latest (c.breakReplayed xs) xs.length := by
  obtain ⟨hlen, hroom⟩ := validate_eq_ok hvalid
  have hkept : (xs.rtake c.history).length = min c.history xs.length := length_rtake
  rw [latest_shift (xs.length - c.history),
    show xs.length - c.history + (xs.rtake c.history).length = xs.length by omega]
  apply latest_congr
  intro i hi
  by_cases hearly : i < xs.length - c.history + c.length
  · have hnone : c.breakReplayed xs i = none := if_pos hearly
    have hfound : c.breakAt (xs.rtake c.history) (i - (xs.length - c.history)) = none := by
      apply breakAt_of_lt
      omega
    rw [hnone, hfound, ite_self]
  · obtain ⟨k, rfl⟩ := Nat.exists_eq_add_of_le (show xs.length - c.history ≤ i by omega)
    rw [if_neg (by omega), Nat.add_sub_cancel_left, breakReplayed, if_neg hearly]
    apply breakAt_congr hlen (by omega) (by omega) (by omega) (by omega)
    · rw [getElem?_rtake]
    · rw [rtake_take_rtake (by omega) (by omega)]

/-- What is offered agrees exactly where no breakout misleads. -/
theorem offer_eq_iff (hsorted : xs.Pairwise fun a b => a.open < b.open) :
    ((latest (c.breakReplayed xs) xs.length).bind fun x =>
      offered c.window x.side x.closedAt now) =
        ((latest (c.breakAt xs) xs.length).bind fun x => offered c.window x.side x.closedAt now) ↔
          ¬ c.Misled xs now := by
  have hbefore : ∀ i < xs.length - c.history + c.length, c.breakReplayed xs i = none :=
    fun i hi => if_pos hi
  have hafter : ∀ i, xs.length - c.history + c.length ≤ i → i < xs.length → ∀ x,
      c.breakAt xs i = some x → c.breakReplayed xs i = some x := by
    intro i hlate _ x hx
    rw [breakReplayed, if_neg (not_lt.mpr hlate), hx]
  have hseen : ∀ {i x}, c.breakReplayed xs i = some x → c.breakAt xs i = some x := by
    intro i x hx
    rw [breakReplayed] at hx
    split_ifs at hx
    exact hx
  have hspurious : ∀ x, ¬ Spurious (c.breakAt xs) (c.breakReplayed xs) xs.length x := by
    rintro x ⟨i, -, hx, hnone, -⟩
    exact nomatch (hseen hx).symm.trans hnone
  rw [latest_bind_eq_iff hbefore hafter]
  · rw [Misled]
    simp only [hspurious, false_or, offered_ne_none_iff]
  · intro i j x y hij hj hx hy hlit
    obtain ⟨a, ha, hclosedAt⟩ := breakAt_closedAt hx
    obtain ⟨b, hb, hclosedAt'⟩ := breakAt_closedAt (hseen hy)
    rw [hclosedAt] at hlit ⊢
    rw [hclosedAt']
    exact offered_lapse hsorted hij ha hb hlit

/-- Applying closed bars leaves no bar forming. -/
theorem run_applied (hclosed : ∀ b ∈ xs, b.Closed now) :
    (c.run (applied xs now)).forming = none := by
  induction xs using List.reverseRecOn with
  | nil => rfl
  | append_singleton xs b ih =>
    have hforming := ih fun a ha => hclosed a (List.mem_append_left _ ha)
    have hb := hclosed b (List.mem_append_right _ List.mem_cons_self)
    rw [applied, List.map_append, run, List.foldl_append, ← applied, ← run]
    change (c.apply (c.run (applied xs now)) b now).forming = none
    unfold apply
    dsimp only
    rw [hforming, formingAfter_none _ hb]
    split_ifs <;> rfl

/-- Seeding with closed bars in order and applying them one by one show the same, exactly where no
breakout misleads. -/
theorem agrees_iff (hvalid : c.validate = .ok ())
    (hsorted : xs.Pairwise fun a b => a.open < b.open) (hclosed : ∀ b ∈ xs, b.Closed now)
    (hs : s.bars = xs) : (c.state (c.seed s now) now).Agrees
      (c.state (c.run (applied xs now)) now) ↔ ¬ c.Misled xs now := by
  subst hs
  obtain ⟨hlen, hroom⟩ := validate_eq_ok hvalid
  have hnoSeeds : ∀ s' t, .seed s' t ∈ applied s.bars now → s'.bars.length ≤ c.history := by
    intro s' t ht
    obtain ⟨b, -, heq⟩ := List.mem_map.mp ht
    exact nomatch heq
  obtain ⟨hbars, hlast⟩ := run_spec hvalid hnoSeeds
  rw [accepted_applied hclosed hsorted] at hbars hlast
  have hforming := run_applied (c := c) hclosed
  have hseed : (c.seed s now).last =
      latest (c.breakAt (s.bars.rtake c.history)) (s.bars.rtake c.history).length := by
    rw [seed, s.closed_eq hclosed hsorted]
    exact foldl_breakAt _
  have hseedBars : (c.seed s now).bars = s.bars.rtake c.history := by
    change (s.closed now).rtake c.history = _
    rw [s.closed_eq hclosed hsorted]
  have hseedForming : (c.seed s now).forming = none := s.forming_eq_none hclosed
  rw [← offer_eq_iff hsorted, ← latest_rtake hvalid, ← hseed, ← hlast]
  constructor
  · exact fun h => h.window
  · intro hwindow
    refine ⟨?_, ?_, ?_, ?_, hwindow⟩ <;>
      simp only [DonchianConfig.state, hbars, hseedBars, hforming, hseedForming]

end DonchianConfig

end Agrees

end SuperAgent.Strategy

namespace SuperAgent.Platform

open Strategy

/-- For every configuration the signals run with and every list of closed bars in order, of any
length: seeding with it and applying it bar by bar show the same and offer the same entry, exactly
where no cross and no breakout misleads. -/
theorem seeding_agrees_iff (symbol : String) (p : Duration) (f : FeedSet)
    (hf : newFeedSet symbol p = .ok f) (xs : List Candle)
    (hsorted : xs.Pairwise fun a b => a.open < b.open) (now : Time)
    (hclosed : ∀ b ∈ xs, b.Closed now) (s : Seeding) (hs : s.bars = xs) :
    ((∃ m m' st st', f.macross.seed s now = some m ∧
        f.macross.run (applied xs now) = some m' ∧ f.macross.state m now = some st ∧
          f.macross.state m' now = some st' ∧ st.Agrees st') ∧
      (f.donchian.state (f.donchian.seed s now) now).Agrees
        (f.donchian.state (f.donchian.run (applied xs now)) now)) ↔
      ¬ f.macross.Misled xs now ∧ ¬ f.donchian.Misled xs now := by
  have hscaled := newFeedSet_scaled hf
  have hfast : f.macross.fast = 5 := by rw [hscaled.macross]
  have hslow : f.macross.slow = 20 := by rw [hscaled.macross]
  have hmoderate : f.macross.Moderate := ⟨by omega, by omega, by omega, by omega⟩
  rw [MACrossConfig.agrees_iff hscaled.macross_valid hmoderate hsorted hclosed hs,
    DonchianConfig.agrees_iff hscaled.donchian_valid hsorted hclosed hs]

theorem fiveSix_sorted :
    [minuteAt 0 5, minuteAt 1 6].Pairwise fun a b => a.open < b.open := by decide +kernel

theorem fiveSix_ascending :
    [minuteAt 0 5, minuteAt 1 6].Pairwise fun a b => a.open ≤ b.open :=
  fiveSix_sorted.imp fun h => h.le

/-- Fewer bars than an average needs mislead nobody. -/
theorem seeding_agrees_early : ((bitcoinFeeds .minute).donchian.state
    ((bitcoinFeeds .minute).donchian.seed ⟨[minuteAt 0 5, minuteAt 1 6],
      [minuteAt 0 5, minuteAt 1 6], .refl _, fiveSix_ascending⟩ 120000000000) 120000000000).Agrees
    ((bitcoinFeeds .minute).donchian.state ((bitcoinFeeds .minute).donchian.run
      (applied [minuteAt 0 5, minuteAt 1 6] 120000000000)) 120000000000) := by
  have hcross : ∀ i < 2, (bitcoinFeeds .minute).macross.crossReplayed
      [minuteAt 0 5, minuteAt 1 6] i = none ∧
    (bitcoinFeeds .minute).macross.crossFound [minuteAt 0 5, minuteAt 1 6] i = none := by decide +kernel
  have hbreak : ∀ i < 2, (bitcoinFeeds .minute).donchian.breakAt
      [minuteAt 0 5, minuteAt 1 6] i = none := by decide +kernel
  refine ((seeding_agrees_iff "BTC" .minute (bitcoinFeeds .minute) rfl
    [minuteAt 0 5, minuteAt 1 6] fiveSix_sorted 120000000000 (by decide +kernel) _ rfl).mpr
      ⟨?_, ?_⟩).2
  · rintro ⟨x, ⟨i, hi, hx, -⟩ | ⟨-, i, hi, hx, -⟩, -⟩
    · cases hx.symm.trans (hcross i hi).1
    · cases hx.symm.trans (hcross i hi).2
  · rintro ⟨br, ⟨-, i, hi, hbr, -⟩, -⟩
    cases hbr.symm.trans (hbreak i hi)

/-- A bar of five minutes, at one price throughout. -/
def fiveMinutesAt (n : ℕ) (price : Fixed.D) : Candle :=
  ⟨n * 300000000000, 5 * .minute, price, price, price, price⟩

/-- A dip, a flat stretch as long as the averages look back, and a spike. -/
def spiked : List Candle :=
  let prices : List Fixed.D :=
    List.replicate 20 1000 ++ [800] ++ List.replicate 58 1000 ++ [1200, 1200]
  prices.mapIdx fiveMinutesAt

theorem spiked_sorted : spiked.Pairwise fun a b => a.open < b.open := by decide +kernel

/-- The spike is no cross where the averages were last apart the same way, but it is one to a seed
that no longer sees that: it offers an entry that the uninterrupted signal does not. -/
theorem seed_offers_spurious : newFeedSet "BTC" (5 * .minute) = .ok (bitcoinFeeds (5 * .minute)) ∧
    spiked.Pairwise (fun a b => a.open < b.open) ∧
    (∀ b ∈ spiked, b.Closed (81 * 300000000000)) ∧ ∃ s : Seeding, s.bars = spiked ∧
      ¬ ∃ m m' st st', (bitcoinFeeds (5 * .minute)).macross.seed s (81 * 300000000000) = some m ∧
        (bitcoinFeeds (5 * .minute)).macross.run (applied spiked (81 * 300000000000)) = some m' ∧
          (bitcoinFeeds (5 * .minute)).macross.state m (81 * 300000000000) = some st ∧
            (bitcoinFeeds (5 * .minute)).macross.state m' (81 * 300000000000) = some st' ∧
              st.Agrees st' := by
  have hseed : (((bitcoinFeeds (5 * .minute)).macross.seed
      ⟨spiked, spiked, .refl _, spiked_sorted.imp fun h => h.le⟩ (81 * 300000000000)).bind fun m =>
        ((bitcoinFeeds (5 * .minute)).macross.state m (81 * 300000000000)).map (·.window)) =
          some (some ⟨.long, 80 * 300000000000, 83 * 300000000000⟩) := by
    decide +kernel
  have hrun : (((bitcoinFeeds (5 * .minute)).macross.run
      (applied spiked (81 * 300000000000))).bind fun m =>
        ((bitcoinFeeds (5 * .minute)).macross.state m (81 * 300000000000)).map (·.window)) =
          some none := by
    decide +kernel
  refine ⟨rfl, spiked_sorted, by decide +kernel,
    ⟨spiked, spiked, .refl _, spiked_sorted.imp fun h => h.le⟩, rfl, ?_⟩
  rintro ⟨m, m', st, st', hm, hm', hst, hst', hagrees⟩
  rw [hm, Option.bind_some, hst, Option.map_some] at hseed
  rw [hm', Option.bind_some, hst', Option.map_some, ← hagrees.window] at hrun
  exact nomatch hseed.symm.trans hrun

end SuperAgent.Platform
