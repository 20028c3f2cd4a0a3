import SuperAgent.Core.Grouped
import SuperAgent.Fixed.Exact
import SuperAgent.Platform.Boards
import SuperAgent.Platform.Ledger
import SuperAgent.Platform.Weeks
import Mathlib.Data.String.Basic

/-!
# Boards from memory

While the database does not answer, the boards are computed from the round trips
that this process saw closed. Memory adds up decimals, each product rounded,
where the database adds up exact numbers and rounds the sum.
-/

namespace SuperAgent.Platform

open Fixed (D)

/-- A wallet's line on a board by volume. -/
structure VolumeStanding extends Standing where
  /-- What the wallet opened, in units of the collateral. -/
  volume : D
  deriving DecidableEq

/-- Before another line: by volume, and by wallet when the volumes are the same. -/
def VolumeStanding.ahead (a b : VolumeStanding) : Prop :=
  b.volume < a.volume ∨ a.volume = b.volume ∧ a.wallet ≤ b.wallet

instance : DecidableRel VolumeStanding.ahead := fun _ _ => inferInstanceAs (Decidable (_ ∨ _))

/-- How many standings a board carries. -/
def topN : Nat := 10

/-- Where all time starts. -/
def epoch : Time := Time.unix 0

/-- Where a period starts. -/
def sinceOf (period : String) (now : Time) : Time :=
  if period = "all" then epoch else weekStartOf now

/-- Where the week ends. -/
def weekEndOf (now : Time) : Time := (weekStartOf now).addDate 0 0 7

/-! ## From the journal -/

/-- What a board by volume reads of a round trip. -/
structure Traded where
  wallet : String
  pnl : D
  size : D
  price : D

/-- Results added up, in units of the eighth place. -/
def resultOf (ts : List Traded) : Int := (ts.map fun t => t.pnl.toInt).sum

/-- Sizes at their prices added up, in units of the sixteenth place. -/
def turnover (ts : List Traded) : Int := (ts.map fun t => t.size.toInt * t.price.toInt).sum

/-- A number with sixteen places rounded to eight, half away from zero. -/
def round8 (n : Int) : Int :=
  if n < 0 then -(roundDiv n.natAbs (10 ^ 8)) else roundDiv n.natAbs (10 ^ 8)

/-- A sum read back from text. One that no decimal holds is zero. -/
def readBack (n : Int) : D := (Fixed.parse (Fixed.numericText n)).toOption.getD 0

/-- Why a line is not read. -/
inductive ScanError
  /-- A sum over no rows is null, which no text is. -/
  | null
  deriving DecidableEq

/-- A wallet's line as the database adds it up. -/
def readLine (wallet : String) (own : List Traded) : VolumeStanding :=
  ⟨⟨wallet, readBack (resultOf own), own.length⟩, readBack (round8 (turnover own))⟩

/-- Before another wallet: by the exact turnover, and by name when that is the same. -/
def tradedMore (ts : List Traded) (a b : String) : Prop :=
  turnover (itemsOf Traded.wallet ts b) < turnover (itemsOf Traded.wallet ts a) ∨
    turnover (itemsOf Traded.wallet ts a) = turnover (itemsOf Traded.wallet ts b) ∧ a ≤ b

instance (ts : List Traded) : DecidableRel (tradedMore ts) :=
  fun _ _ => inferInstanceAs (Decidable (_ ∨ _))

/-- The lines of a board by volume. -/
def boardOf (ts : List Traded) : List VolumeStanding :=
  ((ts.map Traded.wallet).dedup.insertionSort (tradedMore ts)).map fun w =>
    readLine w (itemsOf Traded.wallet ts w)

/-- How many wallets traded more. -/
def aheadOf (ts : List Traded) (wallet : String) : Nat :=
  (ts.map Traded.wallet).dedup.countP fun w =>
    turnover (itemsOf Traded.wallet ts wallet) < turnover (itemsOf Traded.wallet ts w)

namespace Journal

variable (j : Journal) (strategy : String) (since till : Time)

/-- The round trips completed in a span of time, of one strategy or, without one, of all. -/
def traded : List Traded := j.rows.filterMap fun r => r.exit.bind fun e =>
  if (since ≤ e.closedAt ∧ e.closedAt < till) ∧ (strategy = "" ∨ r.strategy = strategy) then
    some ⟨r.wallet, e.pnl, r.size, r.entryPrice⟩
  else none

/-- One page of a board by volume, with how many wallets are on it. -/
def standingsPage (limit offset : Nat) : List VolumeStanding × Nat :=
  let ts := j.traded strategy since till
  (((boardOf ts).drop offset).take limit, (ts.map Traded.wallet).dedup.length)

/-- A wallet's line with where it stands: one more than the wallets that traded more. -/
def standingOf (wallet : String) : Except ScanError (VolumeStanding × Nat) :=
  let ts := j.traded strategy since till
  let own := itemsOf Traded.wallet ts (toLower wallet)
  if own.isEmpty then .error .null
  else .ok (readLine (toLower wallet) own, aheadOf ts (toLower wallet) + 1)

/-- The boards of the catalog. -/
def catalogBoards : Except Fixed.Error (List BoardRow) := do
  let rows ← j.boards since till topN
  return catalog.map fun s => (rows.find? fun b => b.strategy = s.id).getD ⟨s.id, 0, 0, 0, 0, []⟩

end Journal

/-! ## From memory -/

/-- A line with one more round trip. -/
def Standing.add (st : Standing) (t : Trade) : Standing :=
  { st with pnl := st.pnl + t.pnl, trades := st.trades + 1 }

/-- A line with one more round trip, whose size comes to so much at its price. -/
def VolumeStanding.add (st : VolumeStanding) (t : Trade × D) : VolumeStanding :=
  ⟨st.toStanding.add t.1, st.volume + t.2⟩

/-- A strategy's round trips as they are added up. -/
structure Acc where
  pnl : D
  trades : Nat
  standings : AList fun _ : String => Standing

/-- The sums with one more round trip. -/
def Acc.add (a : Acc) (t : Trade) : Acc where
  pnl := a.pnl + t.pnl
  trades := a.trades + 1
  standings := gather Trade.wallet (fun w => ⟨w, 0, 0⟩) Standing.add a.standings t

namespace Ledger

variable (l : Ledger)

/-- How many wallets have an open position under a strategy. -/
def activeNow (strategy : String) : Nat :=
  ((l.opened.entries.filter fun e => e.2.strategy = strategy).map fun e => e.2.wallet).dedup.length

/-- The sums by strategy with one more round trip. -/
def addToBoards (since : Time) (accs : String → Acc) (t : Trade) : String → Acc :=
  if t.closedAt < since ∨ ¬ known t.strategy then accs
  else Function.update accs t.strategy ((accs t.strategy).add t)

/-- The boards of the catalog, from the round trips closed since an instant. -/
def leaderboardFromMemory (since : Time) : List BoardRow :=
  let accs := l.closed.foldl (addToBoards since) fun _ => ⟨0, 0, ∅⟩
  catalog.map fun s =>
    let a := accs s.id
    { strategy := s.id
      pnl := a.pnl
      players := a.standings.entries.length
      trades := a.trades
      activeNow := l.activeNow s.id
      top := ((a.standings.entries.map Sigma.snd).insertionSort Standing.ahead).take topN }

/-- The lines with one more round trip. A product that no decimal holds is a panic. -/
def addToLines (since : Time) (strategyID : String) (m : AList fun _ : String => VolumeStanding)
    (t : Trade) : Option (AList fun _ : String => VolumeStanding) :=
  if t.closedAt < since ∨ (strategyID ≠ "" ∧ t.strategy ≠ strategyID) then some m
  else (Fixed.mul t.entry.size t.entry.price).map fun product =>
    gather (fun p : Trade × D => p.1.wallet) (fun w => ⟨⟨w, 0, 0⟩, 0⟩) VolumeStanding.add m
      (t, product)

/-- One page of a board by volume. -/
def standingsFromMemory (since : Time) (strategyID : String) (limit offset : Nat) :
    Option (List VolumeStanding × Nat) := do
  let standings ← l.closed.foldlM (addToLines since strategyID) ∅
  let all := (standings.entries.map Sigma.snd).insertionSort VolumeStanding.ahead
  let total := all.length
  return (if total ≤ offset then [] else (all.take (min (offset + limit) total)).drop offset, total)

/-- A wallet's line and rank. Rank zero is not on the board. -/
def standingFromMemory (since : Time) (strategyID wallet : String) :
    Option (VolumeStanding × Nat) := do
  let page ← l.standingsFromMemory since strategyID (2 ^ 30) 0
  match page.1.findIdx? fun st => equalFold st.wallet wallet with
  | some i => return (page.1.getD i ⟨⟨"", 0, 0⟩, 0⟩, i + 1)
  | none => return (⟨⟨"", 0, 0⟩, 0⟩, 0)

/-! ## From whichever answers -/

/-- The journal, while the database answers. -/
def answering (up : Bool) : Option Journal := if up then l.journal else none

/-- The boards of the round trips closed since an instant. -/
def boards (up : Bool) (since now : Time) : List BoardRow :=
  ((l.answering up).bind fun j => (j.catalogBoards since (weekEndOf now)).toOption).getD
    (l.leaderboardFromMemory since)

/-- The week's boards, which read the clock twice. -/
def leaderboard (up : Bool) (now later : Time) : List BoardRow :=
  l.boards up (weekStartOf now) later

/-- The boards of every round trip on record. -/
def allTime (up : Bool) (now : Time) : List BoardRow := l.boards up epoch now

/-- One page of a board by volume. -/
def standingsPage (up : Bool) (now : Time) (period strategy : String) (limit offset : Nat) :
    Option (List VolumeStanding × Nat) :=
  let since := sinceOf period now
  ((l.answering up).map fun j => j.standingsPage strategy since (weekEndOf now) limit offset).or
    (l.standingsFromMemory since strategy limit offset)

/-- A wallet's line on a board with its rank. -/
def standingOf (up : Bool) (now : Time) (period strategy wallet : String) :
    Option (VolumeStanding × Nat) :=
  let since := sinceOf period now
  ((l.answering up).bind fun j => (j.standingOf strategy since (weekEndOf now) wallet).toOption).or
    (l.standingFromMemory since strategy wallet)

end Ledger

/-! ## What a line is made of -/

/-- Every product has eight places, and decimals hold every product and the sums of every wallet. -/
structure SumsHold (ts : List Traded) : Prop where
  products : ∀ t ∈ ts, ∃ n : Int,
    t.size.toInt * t.price.toInt = n * 10 ^ 8 ∧ n.natAbs ≤ Fixed.maxInt64
  results : ∀ w, (resultOf (itemsOf Traded.wallet ts w)).natAbs ≤ Fixed.maxInt64
  volumes : ∀ w n, turnover (itemsOf Traded.wallet ts w) = n * 10 ^ 8 → n.natAbs ≤ Fixed.maxInt64

section Lines

variable {ts ts' own : List Traded} {w w' : String} {n : Int}

theorem readBack_eq (h : n.natAbs ≤ Fixed.maxInt64) : readBack n = Int64.ofInt n := by
  rw [readBack, (Fixed.parse_numericText n).mpr ⟨h, rfl⟩]
  rfl

/-- A number with no more than eight places is not rounded. -/
theorem round8_mul (n : Int) : round8 (n * 10 ^ 8) = n := by
  have habs : (n * 10 ^ 8).natAbs = n.natAbs * 10 ^ 8 := Int.natAbs_mul n (10 ^ 8)
  rw [round8, habs, roundDiv_mul_left _ (by decide)]
  split <;> omega

/-- Products with eight places add up to one. -/
theorem exists_turnover (h : ∀ t ∈ own, ∃ n : Int, t.size.toInt * t.price.toInt = n * 10 ^ 8) :
    ∃ n : Int, turnover own = n * 10 ^ 8 := by
  induction own with
  | nil => exact ⟨0, rfl⟩
  | cons t own ih =>
    obtain ⟨n, hn⟩ := h t List.mem_cons_self
    obtain ⟨m, hm⟩ := ih fun u hu => h u (List.mem_cons_of_mem _ hu)
    refine ⟨n + m, ?_⟩
    rw [turnover, List.map_cons, List.sum_cons, hn, ← turnover, hm, Int.add_mul]

/-- What is read of a wallet whose sums decimals hold. -/
theorem SumsHold.readLine_eq (h : SumsHold ts) (w : String) :
    ∃ n : Int, turnover (itemsOf Traded.wallet ts w) = n * 10 ^ 8 ∧ n.natAbs ≤ Fixed.maxInt64 ∧
      readLine w (itemsOf Traded.wallet ts w) =
        ⟨⟨w, Int64.ofInt (resultOf (itemsOf Traded.wallet ts w)),
          (itemsOf Traded.wallet ts w).length⟩, Int64.ofInt n⟩ := by
  obtain ⟨n, hn⟩ : ∃ n : Int, turnover (itemsOf Traded.wallet ts w) = n * 10 ^ 8 := by
    refine exists_turnover fun t ht => ?_
    obtain ⟨n, hn, -⟩ := h.products t (List.mem_of_mem_filter ht)
    exact ⟨n, hn⟩
  have hfits := h.volumes w n hn
  refine ⟨n, hn, hfits, ?_⟩
  rw [readLine, hn, round8_mul, readBack_eq hfits, readBack_eq (h.results w)]

/-- The volume that is read is the turnover. -/
theorem SumsHold.volume (h : SumsHold ts) (w : String) :
    (readLine w (itemsOf Traded.wallet ts w)).volume.toInt * 10 ^ 8 =
      turnover (itemsOf Traded.wallet ts w) := by
  obtain ⟨n, hn, hfits, hline⟩ := h.readLine_eq w
  have hmax : n.natAbs ≤ 2 ^ 63 - 1 := hfits
  rw [hline, hn]
  dsimp only
  rw [Int64.toInt_ofInt_of_le (by omega) (by omega)]

/-- Sums do not depend on the order. -/
theorem sums_perm (h : own.Perm ts) : resultOf own = resultOf ts ∧ turnover own = turnover ts :=
  ⟨(h.map _).sum_eq, (h.map _).sum_eq⟩

theorem readLine_perm (h : own.Perm ts) : readLine w own = readLine w ts := by
  rw [readLine, readLine, (sums_perm h).1, (sums_perm h).2, h.length_eq]

/-! ## What a board is made of -/

theorem tradedMore_eq (ts : List Traded) :
    tradedMore ts = Before (fun w => turnover (itemsOf Traded.wallet ts w)) id := rfl

instance (ts : List Traded) : Std.Total (tradedMore ts) :=
  inferInstanceAs (Std.Total (Before (fun w => turnover (itemsOf Traded.wallet ts w)) id))

instance (ts : List Traded) : IsTrans String (tradedMore ts) :=
  inferInstanceAs (IsTrans String (Before (fun w => turnover (itemsOf Traded.wallet ts w)) id))

/-- The order of the lines in the words of their values. -/
theorem VolumeStanding.ahead_eq :
    VolumeStanding.ahead = Before (fun a => a.volume.toInt) fun a => a.wallet := by
  ext1 a
  ext1 b
  rw [ahead, Before, Int64.lt_iff_toInt_lt, Int64.toInt_inj]

instance : Std.Total VolumeStanding.ahead := by
  rw [VolumeStanding.ahead_eq]
  infer_instance

instance : IsTrans VolumeStanding VolumeStanding.ahead := by
  rw [VolumeStanding.ahead_eq]
  infer_instance

/-- A board does not depend on the order of the round trips. -/
theorem boardOf_perm (h : ts.Perm ts') : boardOf ts = boardOf ts' := by
  have hitems : ∀ w, (itemsOf Traded.wallet ts w).Perm (itemsOf Traded.wallet ts' w) :=
    fun _ => itemsOf_perm h
  have hless : tradedMore ts = tradedMore ts' := by
    funext a b
    simp only [tradedMore, (sums_perm (hitems _)).2]
  have hsorted : (ts.map Traded.wallet).dedup.insertionSort (tradedMore ts) =
      (ts'.map Traded.wallet).dedup.insertionSort (tradedMore ts') := by
    have hpair : ((ts'.map Traded.wallet).dedup.insertionSort (tradedMore ts')).Pairwise
        (tradedMore ts) := by
      rw [hless]
      exact List.pairwise_insertionSort _ _
    refine List.Perm.eq_of_pairwise (fun a b _ _ hab hba => ?_)
      (List.pairwise_insertionSort _ _) hpair ?_
    · rw [tradedMore_eq] at hab hba
      exact (hab.antisymm hba).2
    · exact (List.perm_insertionSort _ _).trans
        ((h.map _).dedup.trans (List.perm_insertionSort _ _).symm)
  rw [boardOf, boardOf, hsorted]
  exact List.map_congr_left fun w _ => readLine_perm (hitems w)

theorem aheadOf_perm (h : ts.Perm ts') (w : String) : aheadOf ts w = aheadOf ts' w := by
  have hturnover : ∀ w, turnover (itemsOf Traded.wallet ts w) =
      turnover (itemsOf Traded.wallet ts' w) := fun _ => (sums_perm (itemsOf_perm h)).2
  simp only [aheadOf, hturnover]
  exact (h.map _).dedup.countP_eq _

end Lines

/-! ## What memory adds up -/

/-- What a board by volume reads of a trade. -/
def Trade.traded (t : Trade) : Traded := ⟨t.wallet, t.pnl, t.entry.size, t.entry.price⟩

/-- Whether a trade was closed since an instant, under a strategy or, without one, under any. -/
def Trade.counts (since : Time) (strategy : String) (t : Trade) : Bool :=
  since ≤ t.closedAt ∧ (strategy = "" ∨ t.strategy = strategy)

/-- The trades that count. -/
def Ledger.kept (l : Ledger) (since : Time) (strategy : String) : List Trade :=
  l.closed.filter (Trade.counts since strategy)

/-- What a board by volume reads of them. -/
def Ledger.tradedSince (l : Ledger) (since : Time) (strategy : String) : List Traded :=
  (l.kept since strategy).map Trade.traded

/-- The size at the price, in units of the eighth place. -/
def Traded.product (t : Traded) : D := Int64.ofInt (t.size.toInt * t.price.toInt / 10 ^ 8)

/-- A trade with its product. -/
def Trade.withProduct (t : Trade) : Trade × D := (t, t.traded.product)

section Memory

variable {ts : List Traded} {since : Time} {strategy w : String} {n : Int} {l : Ledger}
  {own : List Trade}

/-- A product with eight places that a decimal holds is not rounded. -/
theorem mul_exact {a b : D} (h : a.toInt * b.toInt = n * 10 ^ 8)
    (hfits : n.natAbs ≤ Fixed.maxInt64) :
    Fixed.mul a b = some (Int64.ofInt n) := by
  have hscale : Fixed.scale.toInt = 10 ^ 8 := by decide
  have hmax : Fixed.maxInt64 = 2 ^ 63 - 1 := rfl
  have hwraps : ¬ Fixed.Wraps a b Fixed.scale := by
    have habs : a.toInt.natAbs * b.toInt.natAbs = n.natAbs * 10 ^ 8 := by
      rw [← Int.natAbs_mul, h, Int.natAbs_mul]
      rfl
    rintro ⟨hle, -⟩
    rw [habs, hscale] at hle
    omega
  have hquot : ((n : ℚ) / 10 ^ Fixed.exp) * 10 ^ Fixed.exp =
      (a.toInt * b.toInt : ℚ) / Fixed.scale.toInt := by
    rw [← Int.cast_mul, h, hscale, Fixed.exp]
    push_cast
    field_simp
  have hexact := (Fixed.mulDiv_exact_iff (by decide) hquot).mpr hwraps
  have hrounded : Fixed.rounded ((n : ℚ) / 10 ^ Fixed.exp) = n := by
    rw [Fixed.rounded, div_mul_cancel₀ _ (by positivity), roundAway_intCast]
  change Fixed.Exact (Fixed.mul a b) _ at hexact
  cases hmul : Fixed.mul a b with
  | none =>
    rw [hmul] at hexact
    change (Fixed.maxInt64 : ℤ) < |Fixed.rounded _| at hexact
    rw [hrounded, Int.abs_eq_natAbs] at hexact
    omega
  | some d =>
    rw [hmul] at hexact
    have hd : d.toInt = n := hexact.trans hrounded
    rw [← hd, Int64.ofInt_toInt]

theorem Trade.counts_iff (t : Trade) : t.counts since strategy = true ↔
    ¬ (t.closedAt < since ∨ (strategy ≠ "" ∧ t.strategy ≠ strategy)) := by
  rw [counts, decide_eq_true_eq, not_or, not_lt, ← or_iff_not_and_not]

/-- The lines of the trades that count. -/
theorem foldlM_addToLines (closed : List Trade) {m : AList fun _ : String => VolumeStanding}
    (h : ∀ t ∈ closed, t.counts since strategy →
      Fixed.mul t.entry.size t.entry.price = some t.traded.product) :
    closed.foldlM (Ledger.addToLines since strategy) m =
      some (((closed.filter (Trade.counts since strategy)).map Trade.withProduct).foldl
          (gather (fun p : Trade × D => p.1.wallet) (fun w => ⟨⟨w, 0, 0⟩, 0⟩)
            VolumeStanding.add) m) := by
  induction closed generalizing m with
  | nil => rfl
  | cons t closed ih =>
    have hrest := fun m => ih (m := m) fun u hu => h u (List.mem_cons_of_mem _ hu)
    rw [List.foldlM_cons, Ledger.addToLines]
    by_cases hcounts : t.counts since strategy = true
    · rw [if_neg (t.counts_iff.mp hcounts), h t List.mem_cons_self hcounts,
        List.filter_cons_of_pos hcounts]
      exact hrest _
    · rw [if_pos (not_not.mp fun hkeep => hcounts (t.counts_iff.mpr hkeep)),
        List.filter_cons_of_neg hcounts]
      exact hrest m

/-- A wallet's line from its trades. -/
theorem foldl_add (h : ∀ t ∈ own, ∃ n : Int, t.entry.size.toInt * t.entry.price.toInt = n * 10 ^ 8)
    (st : VolumeStanding) : (own.map Trade.withProduct).foldl VolumeStanding.add st =
      ⟨⟨st.wallet, st.pnl + Int64.ofInt (resultOf (own.map Trade.traded)), st.trades + own.length⟩,
        st.volume + Int64.ofInt (turnover (own.map Trade.traded) / 10 ^ 8)⟩ := by
  induction own generalizing st with
  | nil =>
    rw [List.map_nil, List.foldl_nil, List.map_nil]
    change st = ⟨⟨st.wallet, st.pnl + 0, st.trades + 0⟩, st.volume + 0⟩
    rw [Int64.add_zero, Int64.add_zero, Nat.add_zero]
  | cons t own ih =>
    obtain ⟨n, hn⟩ := h t List.mem_cons_self
    have hproduct : t.traded.product = Int64.ofInt n := by
      rw [Traded.product]
      change Int64.ofInt (t.entry.size.toInt * t.entry.price.toInt / 10 ^ 8) = _
      rw [hn, Int.mul_ediv_cancel _ (by decide)]
    have hturnover : turnover ((t :: own).map Trade.traded) / 10 ^ 8 =
        n + turnover (own.map Trade.traded) / 10 ^ 8 := by
      have hcons : turnover ((t :: own).map Trade.traded) =
          t.entry.size.toInt * t.entry.price.toInt + turnover (own.map Trade.traded) := rfl
      omega
    have hresult : resultOf ((t :: own).map Trade.traded) =
        t.pnl.toInt + resultOf (own.map Trade.traded) := rfl
    rw [List.map_cons, List.foldl_cons, ih fun u hu => h u (List.mem_cons_of_mem _ hu), hturnover,
      hresult, Int64.ofInt_add, Int64.ofInt_add, Int64.ofInt_toInt, ← Int64.add_assoc,
      ← Int64.add_assoc, ← hproduct, List.length_cons, Nat.add_comm own.length, ← Nat.add_assoc]
    rfl

/-- The lines of memory are those of the database, when decimals hold them. -/
theorem entries_addToLines (h : SumsHold (l.tradedSince since strategy)) :
    ∃ m, l.closed.foldlM (Ledger.addToLines since strategy) ∅ = some m ∧
      (m.entries.map Sigma.snd).Perm (((l.tradedSince since strategy).map Traded.wallet).dedup.map
        fun w => readLine w (itemsOf Traded.wallet (l.tradedSince since strategy) w)) := by
  have hwhole : ∀ t ∈ l.kept since strategy,
      ∃ n : Int, t.entry.size.toInt * t.entry.price.toInt = n * 10 ^ 8 ∧
        n.natAbs ≤ Fixed.maxInt64 :=
    fun t ht => h.products _ (List.mem_map_of_mem ht)
  refine ⟨_, foldlM_addToLines l.closed fun t ht hcounts => ?_, ?_⟩
  · obtain ⟨n, hn, hfits⟩ := hwhole t (List.mem_filter.mpr ⟨ht, hcounts⟩)
    rw [mul_exact hn hfits, Traded.product]
    change _ = some (Int64.ofInt (t.entry.size.toInt * t.entry.price.toInt / 10 ^ 8))
    rw [hn, Int.mul_ediv_cancel _ (by decide)]
  · have hentries := entries_gather (fun p : Trade × D => p.1.wallet)
      (fun w => (⟨⟨w, 0, 0⟩, 0⟩ : VolumeStanding)) VolumeStanding.add
      ((l.kept since strategy).map Trade.withProduct)
    refine (hentries.map Sigma.snd).trans ?_
    rw [List.map_map]
    have hwallets : ((l.kept since strategy).map Trade.withProduct).map (fun p => p.1.wallet) =
        (l.tradedSince since strategy).map Traded.wallet := by
      rw [Ledger.tradedSince, List.map_map, List.map_map]
      rfl
    rw [hwallets]
    refine List.Perm.of_eq (List.map_congr_left fun w _ => ?_)
    have hitems : itemsOf (fun p : Trade × D => p.1.wallet)
        ((l.kept since strategy).map Trade.withProduct) w =
          ((l.kept since strategy).filter fun t => t.wallet = w).map Trade.withProduct := by
      rw [itemsOf, List.filter_map]
      rfl
    have hown : itemsOf Traded.wallet (l.tradedSince since strategy) w =
        ((l.kept since strategy).filter fun t => t.wallet = w).map Trade.traded := by
      rw [itemsOf, Ledger.tradedSince, List.filter_map]
      rfl
    obtain ⟨n, hn, -, hline⟩ := h.readLine_eq w
    rw [hline, Function.comp_apply, hitems, foldl_add fun t ht => ?_, ← hown, hn,
      Int.mul_ediv_cancel _ (by decide), hown, List.length_map]
    · rw [Int64.zero_add, Int64.zero_add, Nat.zero_add]
    · obtain ⟨n, hn, -⟩ := hwhole t (List.mem_of_mem_filter ht)
      exact ⟨n, hn⟩

/-- A board is ordered by the volumes that are read. -/
theorem boardOf_sorted (h : SumsHold ts) : (boardOf ts).Pairwise VolumeStanding.ahead := by
  rw [boardOf, List.pairwise_map]
  refine (List.pairwise_insertionSort (tradedMore ts) _).imp fun {a b} hab => ?_
  have ha := h.volume a
  have hb := h.volume b
  rw [VolumeStanding.ahead_eq]
  rcases hab with hmore | ⟨hsame, hle⟩
  · have hlt : (readLine b (itemsOf Traded.wallet ts b)).volume.toInt <
        (readLine a (itemsOf Traded.wallet ts a)).volume.toInt := by omega
    exact .inl hlt
  · have heq : (readLine a (itemsOf Traded.wallet ts a)).volume.toInt =
        (readLine b (itemsOf Traded.wallet ts b)).volume.toInt := by omega
    exact .inr ⟨heq, hle⟩

/-- The board of memory is the database's, when decimals hold its sums. -/
theorem standingsFromMemory_eq (h : SumsHold (l.tradedSince since strategy)) (limit offset : Nat) :
    l.standingsFromMemory since strategy limit offset =
      some (((boardOf (l.tradedSince since strategy)).drop offset).take limit,
        ((l.tradedSince since strategy).map Traded.wallet).dedup.length) := by
  obtain ⟨m, hm, hperm⟩ := entries_addToLines h
  generalize l.tradedSince since strategy = ts at h hperm
  have hboard : (boardOf ts).Perm ((ts.map Traded.wallet).dedup.map fun w =>
      readLine w (itemsOf Traded.wallet ts w)) := (List.perm_insertionSort _ _).map _
  have hsorted : (m.entries.map Sigma.snd).insertionSort VolumeStanding.ahead = boardOf ts := by
    refine List.Perm.eq_of_pairwise (fun a b ha hb hab hba => ?_)
      (List.pairwise_insertionSort _ _) (boardOf_sorted h)
      ((List.perm_insertionSort _ _).trans (hperm.trans hboard.symm))
    have hmem := hperm.mem_iff.mp ((List.perm_insertionSort _ _).mem_iff.mp ha)
    obtain ⟨w, -, rfl⟩ := List.mem_map.mp hmem
    obtain ⟨w', -, rfl⟩ := List.mem_map.mp hb
    rw [VolumeStanding.ahead_eq] at hab hba
    have hw : w = w' := (hab.antisymm hba).2
    rw [hw]
  have hlength : (boardOf ts).length = (ts.map Traded.wallet).dedup.length := by
    rw [hboard.length_eq, List.length_map]
  rw [Ledger.standingsFromMemory, hm, Option.bind_eq_bind, Option.bind_some, hsorted, ← hlength]
  refine congrArg some (Prod.ext ?_ rfl)
  dsimp only
  split
  · next hle => rw [List.drop_eq_nil_of_le hle, List.take_nil]
  · rw [List.drop_take, List.take_eq_take_iff, List.length_drop]
    omega

end Memory

/-! ## Ranks -/

section Ranked

variable {ts : List Traded} {since : Time} {strategy wallet w : String} {l : Ledger}
  {pre post : List String}

/-- The wallets of a board in its order. -/
def ranked (ts : List Traded) : List String :=
  (ts.map Traded.wallet).dedup.insertionSort (tradedMore ts)

theorem ranked_perm (ts : List Traded) : (ranked ts).Perm (ts.map Traded.wallet).dedup :=
  List.perm_insertionSort _ _

theorem ranked_nodup (ts : List Traded) : (ranked ts).Nodup :=
  (ranked_perm ts).nodup_iff.mpr (List.nodup_dedup _)

theorem ranked_length_le (ts : List Traded) : (ranked ts).length ≤ ts.length := by
  have hwallets := (List.dedup_sublist (ts.map Traded.wallet)).length_le
  rwa [List.length_map, ← (ranked_perm ts).length_eq] at hwallets

theorem mem_ranked : w ∈ ranked ts ↔ itemsOf Traded.wallet ts w ≠ [] := by
  rw [(ranked_perm ts).mem_iff, List.mem_dedup, itemsOf_ne_nil]

/-- A wallet's rank in the journal is its place exactly when no wallet before it traded as much. -/
theorem aheadOf_eq_iff (h : ranked ts = pre ++ w :: post) : aheadOf ts w = pre.length ↔
    ∀ x ∈ pre, turnover (itemsOf Traded.wallet ts x) ≠ turnover (itemsOf Traded.wallet ts w) := by
  have hsorted : (ranked ts).Pairwise
      (Before (fun w => turnover (itemsOf Traded.wallet ts w)) id) :=
    List.pairwise_insertionSort (tradedMore ts) _
  rw [aheadOf, ← (ranked_perm ts).countP_eq, h]
  rw [h] at hsorted
  exact countP_greater_eq_iff (hsorted.imp Before.le)

/-- Texts in small letters are the same as any text they fold to, in small letters. -/
theorem equalFold_iff {a : String} (ha : a = toLower a) : equalFold a wallet = true ↔
    a = toLower wallet := by
  have hlist : a.toList.map Char.toLower = a.toList := by
    conv_rhs => rw [ha, toLower, String.toList_ofList]
  rw [equalFold, beq_iff_eq, hlist, ← String.toList_inj, toLower, String.toList_ofList]

theorem lower_of_mem_ranked (hlower : ∀ t ∈ ts, t.wallet = toLower t.wallet) (h : w ∈ ranked ts) :
    w = toLower w := by
  obtain ⟨t, ht⟩ := List.exists_mem_of_ne_nil _ (mem_ranked.mp h)
  obtain ⟨hin, hwallet⟩ := List.mem_filter.mp ht
  rw [← of_decide_eq_true hwallet]
  exact hlower t hin

/-- The whole of a board that is not too long. -/
theorem board_page (hfew : (ranked ts).length ≤ 2 ^ 30) :
    ((boardOf ts).drop 0).take (2 ^ 30) = boardOf ts := by
  refine List.take_of_length_le ?_
  rw [List.drop_zero, boardOf, List.length_map]
  exact hfew

/-- The line of a wallet on the board of memory is at its place. -/
theorem standingFromMemory_some (h : SumsHold (l.tradedSince since strategy))
    (hlower : ∀ t ∈ l.tradedSince since strategy, t.wallet = toLower t.wallet)
    (hfew : (ranked (l.tradedSince since strategy)).length ≤ 2 ^ 30)
    (hplace : ranked (l.tradedSince since strategy) = pre ++ toLower wallet :: post) :
    l.standingFromMemory since strategy wallet =
      some (readLine (toLower wallet)
          (itemsOf Traded.wallet (l.tradedSince since strategy) (toLower wallet)),
        pre.length + 1) := by
  rw [Ledger.standingFromMemory, standingsFromMemory_eq h, board_page hfew]
  generalize l.tradedSince since strategy = ts at h hlower hfew hplace
  have hnodup := ranked_nodup ts
  have hmem : ∀ w ∈ pre ++ toLower wallet :: post, w = toLower w := fun w hw =>
    lower_of_mem_ranked hlower (hplace ▸ hw)
  have hboard : boardOf ts =
      pre.map (fun w => readLine w (itemsOf Traded.wallet ts w)) ++
        readLine (toLower wallet) (itemsOf Traded.wallet ts (toLower wallet)) ::
          post.map fun w => readLine w (itemsOf Traded.wallet ts w) := by
    rw [boardOf, ← ranked, hplace, List.map_append, List.map_cons]
  have hfound : (boardOf ts).findIdx? (fun st => equalFold st.wallet wallet) = some pre.length := by
    rw [hboard, findIdx?_middle, List.length_map]
    · intro st hst
      obtain ⟨w, hw, rfl⟩ := List.mem_map.mp hst
      rw [hplace] at hnodup
      refine eq_false_of_ne_true fun hfold => ?_
      have heq : w = toLower wallet :=
        (equalFold_iff (hmem w (List.mem_append_left _ hw))).mp hfold
      exact List.disjoint_of_nodup_append hnodup hw (heq ▸ List.mem_cons_self)
    · exact (equalFold_iff (hmem _ (List.mem_append_right _ List.mem_cons_self))).mpr rfl
  rw [Option.bind_eq_bind, Option.bind_some]
  dsimp only
  rw [hfound, hboard]
  simp

end Ranked

end SuperAgent.Platform
