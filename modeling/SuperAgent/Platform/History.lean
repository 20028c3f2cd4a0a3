import SuperAgent.Core.Base64
import SuperAgent.Core.Paging
import SuperAgent.Fixed.Printing
import SuperAgent.Platform.Journal
import Mathlib.Data.Prod.Lex
import Mathlib.Order.Lattice

/-!
# Pages of history

A wallet's round trips are read a page at a time, newest first. The next page is
asked for by when the last row of this one opened and by its id, which go to the
app and come back as text it does not look into.
-/

namespace SuperAgent.Platform

open Fixed (formatInt)

/-- Where a page of history left off. -/
structure TradeCursor where
  openedAt : Time
  id : Int64
  deriving DecidableEq

/-- What a page of history asks for. -/
structure TradeQuery where
  wallet : String
  symbol : String
  strategy : String
  closedOnly : Bool
  limit : Nat
  after : TradeCursor

namespace TradeCursor

/-- Where the newest page starts, and what the last page says comes next. -/
def zero : TradeCursor := ⟨0, 0⟩

def isZero (c : TradeCursor) : Bool := c.id = 0 ∧ c.openedAt = 0

/-- A cursor as the database compares rows with it. -/
def place (c : TradeCursor) : Int ×ₗ Int := toLex (c.openedAt.micros, c.id.toInt)

end TradeCursor

/-- The columns that order the rows. -/
def TradeRow.place (r : TradeRow) : Int ×ₗ Int := toLex (r.openedAt, (r.id : Int))

/-- A row as a cursor. -/
def TradeRow.cursor (r : TradeRow) : TradeCursor := ⟨r.openedAt, .ofNat r.id⟩

/-- Whether a query asks for a row. -/
def TradeQuery.selects (q : TradeQuery) (r : TradeRow) : Bool :=
  r.wallet = q.wallet ∧ (q.symbol = "" ∨ r.symbol = q.symbol) ∧
    (q.strategy = "" ∨ r.strategy = q.strategy) ∧ (q.closedOnly → ¬ r.isOpen)

/-- Whether a row lies beyond where the last page left off. A query without a time has no last
page. -/
def TradeQuery.beyond (q : TradeQuery) (r : TradeRow) : Bool :=
  q.after.openedAt = 0 ∨ r.place < q.after.place

/-- One page of a wallet's round trips, newest first, and where the next one starts. A full page may
or may not be the last. -/
def Journal.tradesPage (j : Journal) (q : TradeQuery) : List TradeRow × TradeCursor :=
  let rows := (descending TradeRow.place
    (j.rows.filter fun r => q.selects r && q.beyond r)).take q.limit
  (rows, if rows.length = q.limit ∧ 0 < q.limit then
    rows.getLast?.elim .zero TradeRow.cursor else .zero)

/-! ## Cursors as text -/

/-- A cursor as the app carries it. -/
def encodeTradeCursor (c : TradeCursor) : String :=
  if c.isZero then "" else
    String.ofList (Base64.encode (((formatInt c.openedAt.unixNano).toList ++
      ':' :: (formatInt c.id).toList).map Char.toUInt8))

/-- A cursor as the app brings it back. -/
def parseTradeCursor (v : String) : Except Error TradeCursor :=
  if trimSpace v = "" then .ok .zero
  else match (Base64.decode v.toList).bind fun raw => cut ':' (raw.map Char.ofUInt8) with
    | none => .error (.invalid "cursor")
    | some (nanos, id) =>
      match parseInt (String.ofList nanos), parseInt (String.ofList id) with
      | .ok n, .ok rowID => .ok ⟨.ofUnixNano n, rowID⟩
      | _, _ => .error (.invalid "cursor")

/-- A page as the app asks for it: by the text of a cursor, and with one for the next page. -/
def Journal.pageAt (j : Journal) (q : TradeQuery) (cursor : String) :
    Except Error (List TradeRow × String) := do
  let after ← parseTradeCursor cursor
  let page := j.tradesPage { q with after }
  return (page.1, encodeTradeCursor page.2)

/-- A page as the app walks the history with it. -/
def Journal.readPage (j : Journal) (q : TradeQuery) (cursor : String) :
    Option (List TradeRow × String) := (j.pageAt q cursor).toOption

/-- What the app sends to read its history. -/
structure HistoryRequest where
  symbol : String
  strategy : String
  closed : String
  limit : String
  cursor : String

/-- How many rows a page holds: fifty, unless it is asked for up to five hundred. -/
def HistoryRequest.pageSize (a : HistoryRequest) : Nat :=
  match parseInt a.limit with
  | .ok n => if 0 < n ∧ n ≤ 500 then n.toInt.toNat else 50
  | .error _ => 50

/-- What a wallet's request asks for. -/
def HistoryRequest.query (a : HistoryRequest) (wallet : String) : TradeQuery where
  wallet := wallet
  symbol := symbolOf a.symbol
  strategy := trimSpace a.strategy
  closedOnly := a.closed = "1" || a.closed = "true"
  limit := a.pageSize
  after := .zero

/-- A wallet's round trips, as the app reads them. -/
def Journal.trades (j : Journal) (wallet : String) (a : HistoryRequest) :
    Except Error (List TradeRow × String) := j.pageAt (a.query wallet) a.cursor

/-- A page that is asked for holds a row at least. -/
theorem HistoryRequest.pageSize_pos (a : HistoryRequest) : 0 < a.pageSize := by
  unfold pageSize
  split
  · next n _ =>
    split
    · next h =>
      have hpos := Int64.lt_iff_toInt_lt.mp h.1
      rw [Int64.toInt_zero] at hpos
      omega
    · decide
  · decide

/-- The pages a wallet asks for one by one are those of its query. -/
theorem Journal.trades_eq (j : Journal) (wallet : String) (a : HistoryRequest) (cursor : String) :
    (j.trades wallet { a with cursor }).toOption = j.readPage (a.query wallet) cursor := rfl

/-- The letters of a number and the mark between two of them are bytes, and no white space. -/
theorem ascii_of_mem_formatInt {v : Int64} {c : Char} (hc : c ∈ (formatInt v).toList) :
    c.toNat < 256 ∧ c ≠ ':' := by
  rw [Fixed.toList_formatInt, List.mem_append] at hc
  rcases hc with hc | hc
  · split at hc
    · rw [List.mem_singleton.mp hc]
      decide
    · cases hc
  · have hdigit : c.isDigit := Nat.isDigit_of_mem_toDigits (b := 10) (by decide) le_rfl hc
    have hrange : 48 ≤ c.toNat ∧ c.toNat ≤ 57 := by
      simpa [Char.isDigit, UInt32.le_iff_toNat_le] using hdigit
    refine ⟨by omega, ?_⟩
    rintro rfl
    cases hdigit

/-- A letter that is one byte is read from it. -/
theorem ofUInt8_toUInt8 {c : Char} (h : c.toNat < 256) : Char.ofUInt8 c.toUInt8 = c := by
  apply Char.ext
  apply UInt32.toNat_inj.mp
  change c.val.toUInt8.toUInt32.toNat = c.val.toNat
  rw [UInt8.toNat_toUInt32, UInt32.toNat_toUInt8]
  exact Nat.mod_eq_of_lt h

theorem letter_not_space : ∀ n < 64, isSpace (Base64.letter n) = false := by decide +kernel

/-- A cursor comes back as it was sent. -/
theorem parse_encode {c : TradeCursor} (h : c = .zero ∨ ¬ c.isZero ∧
    -2 ^ 63 ≤ c.openedAt - Time.unix 0 ∧ c.openedAt - Time.unix 0 < 2 ^ 63) :
    parseTradeCursor (encodeTradeCursor c) = .ok c := by
  rcases h with rfl | ⟨hzero, hlow, hhigh⟩
  · rfl
  generalize htext : (formatInt c.openedAt.unixNano).toList ++ ':' :: (formatInt c.id).toList = text
  have hletters : ∀ x ∈ text, x.toNat < 256 := by
    intro x hx
    rw [← htext, List.mem_append, List.mem_cons] at hx
    rcases hx with hx | rfl | hx
    · exact (ascii_of_mem_formatInt hx).1
    · decide
    · exact (ascii_of_mem_formatInt hx).1
  have hne : Base64.encode (text.map Char.toUInt8) ≠ [] := by
    refine Base64.encode_ne_nil fun hnil => ?_
    rw [List.map_eq_nil_iff, ← htext] at hnil
    exact List.append_ne_nil_of_right_ne_nil _ (List.cons_ne_nil _ _) hnil
  have hspace : trimSpace (String.ofList (Base64.encode (text.map Char.toUInt8))) =
      String.ofList (Base64.encode (text.map Char.toUInt8)) := by
    refine trimSpace_eq_self fun x hx => ?_
    rw [String.toList_ofList] at hx
    obtain ⟨n, hn, rfl⟩ := List.mem_map.mp hx
    exact letter_not_space n (Base64.lt_of_mem_sextets _ hn)
  have hback : (text.map Char.toUInt8).map Char.ofUInt8 = text := by
    rw [List.map_map]
    exact (List.map_congr_left fun x hx => ofUInt8_toUInt8 (hletters x hx)).trans (List.map_id' text)
  have hcut : cut ':' text = some ((formatInt c.openedAt.unixNano).toList,
      (formatInt c.id).toList) := by
    rw [← htext]
    exact cut_append fun hmem => (ascii_of_mem_formatInt hmem).2 rfl
  have hread : ((Base64.decode (Base64.encode (text.map Char.toUInt8))).bind fun raw =>
      cut ':' (raw.map Char.ofUInt8)) = some ((formatInt c.openedAt.unixNano).toList,
        (formatInt c.id).toList) := by
    rw [Base64.decode_encode, Option.bind_some, hback, hcut]
  rw [encodeTradeCursor, if_neg hzero, htext, parseTradeCursor, hspace, if_neg, String.toList_ofList,
    hread]
  · dsimp only
    rw [String.ofList_toList, String.ofList_toList, Fixed.parseInt_formatInt,
      Fixed.parseInt_formatInt]
    dsimp only
    rw [Time.ofUnixNano_unixNano hlow hhigh]
  · intro hempty
    exact hne (String.ofList_inj.mp hempty)

/-! ## Pages laid end to end -/

/-- A row of the table: its id is positive, and it opened at a whole microsecond that 64-bit
nanoseconds reach. -/
structure TradeRow.Dated (r : TradeRow) : Prop where
  pos : 0 < r.id
  fits : r.id < 2 ^ 63
  whole : r.openedAt.micros = r.openedAt
  low : -2 ^ 63 ≤ r.openedAt - Time.unix 0
  high : r.openedAt - Time.unix 0 < 2 ^ 63

namespace TradeRow.Dated

variable {r : TradeRow}

theorem toInt_id (h : r.Dated) : (Int64.ofNat r.id).toInt = r.id :=
  Int64.toInt_ofNat_of_lt h.fits

/-- A row opened after the first day of the calendar. -/
theorem openedAt_ne (h : r.Dated) : r.openedAt ≠ 0 := by
  have hepoch : Time.unix 0 = 62135596800000000000 := by decide
  have hlow := h.low
  rw [hepoch] at hlow
  intro hzero
  rw [hzero] at hlow
  exact absurd hlow (by decide)

/-- The database compares with a row's cursor as with the row. -/
theorem place_cursor (h : r.Dated) : r.cursor.place = r.place := by
  rw [TradeCursor.place, TradeRow.cursor, TradeRow.place, h.whole, h.toInt_id]

theorem not_isZero (h : r.Dated) : ¬ r.cursor.isZero := by
  rw [TradeCursor.isZero, decide_eq_true_eq]
  exact fun hzero => h.openedAt_ne hzero.2

/-- A row's cursor comes back. -/
theorem parse_cursor (h : r.Dated) : parseTradeCursor (encodeTradeCursor r.cursor) = .ok r.cursor :=
  parse_encode (.inr ⟨h.not_isZero, h.low, h.high⟩)

end TradeRow.Dated

namespace Journal

variable {j : Journal} {q : TradeQuery} {k : Nat}

/-- All that a query asks for, newest first. -/
def history (j : Journal) (q : TradeQuery) : List TradeRow :=
  descending TradeRow.place (j.rows.filter q.selects)

/-- The cursor after so many rows. -/
def cursorAt (j : Journal) (q : TradeQuery) (k : Nat) : TradeCursor :=
  ((j.history q).take k).getLast?.elim .zero TradeRow.cursor

theorem mem_of_mem_history {r : TradeRow} (hr : r ∈ j.history q) : r ∈ j.rows :=
  (List.mem_filter.mp ((descending_perm _ _).mem_iff.mp hr)).1

/-- Rows are apart by their ids. -/
theorem nodup_places (hids : (j.rows.map TradeRow.id).Nodup) (p : TradeRow → Bool) :
    ((j.rows.filter p).map TradeRow.place).Nodup := by
  have hplaces : (j.rows.map TradeRow.place).Nodup := by
    refine List.Nodup.of_map (fun x => (ofLex x).2.toNat) ?_
    rw [List.map_map]
    exact hids
  exact hplaces.sublist (List.filter_sublist.map _)

theorem pairwise_history (hids : (j.rows.map TradeRow.id).Nodup) :
    (j.history q).Pairwise fun r s => s.place < r.place :=
  pairwise_descending (nodup_places hids _)

/-- After the first rows, a query lies beyond the last of them. -/
theorem cursorAt_succ (hk : k < (j.history q).length) :
    j.cursorAt q (k + 1) = ((j.history q)[k]).cursor := by
  rw [cursorAt, List.take_succ_eq_append_getElem hk, List.getLast?_concat]
  rfl

/-- A page after the first rows is cut from the history there. -/
theorem tradesPage_cursorAt (hids : (j.rows.map TradeRow.id).Nodup) (hrows : ∀ r ∈ j.rows, r.Dated)
    (hk : k ≤ (j.history q).length) :
    (j.tradesPage { q with after := j.cursorAt q k }).1 = ((j.history q).drop k).take q.limit := by
  generalize hat : ({ q with after := j.cursorAt q k } : TradeQuery) = next
  have hselects : next.selects = q.selects := hat ▸ rfl
  have hlimit : next.limit = q.limit := hat ▸ rfl
  have hsplit : (j.rows.filter fun r => next.selects r && next.beyond r) =
      (j.rows.filter q.selects).filter next.beyond := by
    rw [List.filter_filter, hselects]
    exact List.filter_congr fun r _ => Bool.and_comm _ _
  have hbeyond : (j.history q).filter next.beyond = (j.history q).drop k := by
    subst hat
    cases k with
    | zero =>
      rw [List.drop_zero]
      exact List.filter_eq_self.mpr fun r _ => decide_eq_true (Or.inl rfl)
    | succ k =>
      have hrow := hrows _ (mem_of_mem_history (List.getElem_mem hk))
      rw [← filter_below (pairwise_history hids) hk, cursorAt_succ hk]
      refine List.filter_congr fun r _ => ?_
      rw [TradeQuery.beyond, hrow.place_cursor, decide_eq_decide]
      exact or_iff_right hrow.openedAt_ne
  rw [tradesPage, hsplit, descending_filter (nodup_places hids _), hlimit, ← history, hbeyond]

/-- The next page starts where this one ended, when it is full. -/
theorem tradesPage_next (hids : (j.rows.map TradeRow.id).Nodup) (hrows : ∀ r ∈ j.rows, r.Dated)
    (hlimit : 0 < q.limit) (hk : k ≤ (j.history q).length) :
    (j.tradesPage { q with after := j.cursorAt q k }).2 =
      if k + q.limit ≤ (j.history q).length then j.cursorAt q (k + q.limit) else .zero := by
  have hpage := tradesPage_cursorAt hids hrows hk
  rw [tradesPage] at hpage ⊢
  dsimp only at hpage ⊢
  rw [hpage, List.length_take, List.length_drop]
  by_cases hfull : k + q.limit ≤ (j.history q).length
  · have hlast : (((j.history q).drop k).take q.limit).getLast? =
        ((j.history q).take (k + q.limit)).getLast? := by
      rw [List.take_add, List.getLast?_append_of_ne_nil]
      intro hnil
      have hlen := congrArg List.length hnil
      rw [List.length_take, List.length_drop, List.length_nil] at hlen
      omega
    rw [if_pos (by omega), if_pos hfull, hlast]
    rfl
  · rw [if_neg (by omega), if_neg hfull]

/-- The text of the cursor after so many rows. -/
def tokenAt (j : Journal) (q : TradeQuery) (k : Nat) : String := encodeTradeCursor (j.cursorAt q k)

theorem tokenAt_zero : j.tokenAt q 0 = "" := rfl

/-- A cursor within the history comes back. -/
theorem parse_tokenAt (hrows : ∀ r ∈ j.rows, r.Dated) (hk : k ≤ (j.history q).length) :
    parseTradeCursor (j.tokenAt q k) = .ok (j.cursorAt q k) := by
  cases k with
  | zero => exact parse_encode (.inl rfl)
  | succ k =>
    rw [tokenAt, cursorAt_succ hk]
    exact (hrows _ (mem_of_mem_history (List.getElem_mem hk))).parse_cursor

/-- After a row, there is a cursor. -/
theorem tokenAt_ne (hrows : ∀ r ∈ j.rows, r.Dated) (hpos : 0 < k) (hk : k ≤ (j.history q).length) :
    j.tokenAt q k ≠ "" := by
  obtain ⟨k, rfl⟩ := Nat.exists_eq_add_of_lt hpos
  rw [Nat.zero_add] at hk ⊢
  have hrow := hrows _ (mem_of_mem_history (List.getElem_mem hk))
  have hback := parse_tokenAt hrows hk
  rw [cursorAt_succ hk] at hback
  intro hempty
  rw [hempty] at hback
  refine hrow.not_isZero ?_
  rw [← Except.ok.inj hback]
  rfl

/-- What the app reads after the first rows. -/
theorem readPage_tokenAt (hids : (j.rows.map TradeRow.id).Nodup) (hrows : ∀ r ∈ j.rows, r.Dated)
    (hlimit : 0 < q.limit) (hk : k ≤ (j.history q).length) :
    j.readPage q (j.tokenAt q k) = some (((j.history q).drop k).take q.limit,
      if k + q.limit ≤ (j.history q).length then j.tokenAt q (k + q.limit) else "") := by
  rw [readPage, pageAt, parse_tokenAt hrows hk]
  change some (_, encodeTradeCursor _) = _
  rw [tradesPage_cursorAt hids hrows hk, tradesPage_next hids hrows hlimit hk]
  split <;> rfl

/-- Pages of any size that holds a row, each asked for with the cursor of the one before it, end
after no more of them than there are rows, and one. Laid end to end they are the rows the query asks
for, each once, from the newest to the oldest. -/
theorem pages_cover (j : Journal) (q : TradeQuery) (hlimit : 0 < q.limit)
    (hids : (j.rows.map TradeRow.id).Nodup) (hrows : ∀ r ∈ j.rows, r.Dated) :
    ∃ pages, (∀ fuel, j.rows.length < fuel → walk (j.readPage q) "" fuel "" = some pages) ∧
      pages.flatten.Perm (j.rows.filter q.selects) ∧
      pages.flatten.Pairwise fun r s => s.place < r.place := by
  have hlen : (j.history q).length ≤ j.rows.length := by
    rw [history, (descending_perm _ _).length_eq]
    exact List.length_filter_le _ _
  have hread : ∀ k ≤ (j.history q).length, j.readPage q (j.tokenAt q k) =
      some (((j.history q).drop k).take q.limit,
        if k + q.limit ≤ (j.history q).length then j.tokenAt q (k + q.limit) else "") :=
    fun k hk => readPage_tokenAt hids hrows hlimit hk
  obtain ⟨pages, hwalk, hpages⟩ := walk_spec hlimit (fun k => tokenAt_ne hrows) hread
    ((j.history q).length + 1) 0 (Nat.zero_le _) (by omega)
  rw [tokenAt_zero] at hwalk
  refine ⟨pages, fun fuel hfuel => hwalk fuel (by omega), ?_⟩
  rw [hpages, List.drop_zero]
  exact ⟨descending_perm _ _, pairwise_history hids⟩

/-- An open row that is dated so many microseconds after the epoch. -/
def rowAt (id : Nat) (micros : Int) : TradeRow :=
  ⟨id, "0xa", "rsi", "BTC", toString id, .long, Fixed.scale, Fixed.scale, 0, none,
    ⟨none, none, none, none⟩, Time.unix 0 + micros * 1000, none⟩

/-- Of three rows, two opened at one time. -/
def threeRows : Journal := ⟨[rowAt 1 5, rowAt 2 5, rowAt 3 7], 4⟩

/-- All of a wallet's round trips, one to a page. -/
def oneByOne : TradeQuery := ⟨"0xa", "", "", false, 1, .zero⟩

theorem dated_threeRows : ∀ r ∈ threeRows.rows, r.Dated := by
  have hdated : ∀ id micros, 0 < id ∧ id < 2 ^ 63 → 0 ≤ micros ∧ micros < 2 ^ 53 →
      (rowAt id micros).Dated := by
    intro id micros hid hmicros
    have hepoch : Time.unix 0 = 62135596800000000000 := by decide
    have hwhole : (62135596800000000000 + micros * 1000 : Int) % 1000 = 0 := by omega
    have hnear : ∀ e : Int, -2 ^ 63 ≤ e + micros * 1000 - e ∧ e + micros * 1000 - e < 2 ^ 63 := by
      intro e
      omega
    refine ⟨hid.1, hid.2, ?_, (hnear _).1, (hnear _).2⟩
    rw [rowAt, hepoch, Time.micros, hwhole, Int.sub_zero]
  simp only [threeRows, List.forall_mem_cons]
  exact ⟨hdated 1 5 (by decide) (by decide), hdated 2 5 (by decide) (by decide),
    hdated 3 7 (by decide) (by decide), List.forall_mem_nil _⟩

/-- The pages of three rows, two of which only their ids tell apart. -/
theorem pages_cover_three : ∃ pages,
    (∀ fuel, 3 < fuel → walk (threeRows.readPage oneByOne) "" fuel "" = some pages) ∧
      pages.flatten.Perm (threeRows.rows.filter oneByOne.selects) ∧
      pages.flatten.Pairwise fun r s => s.place < r.place :=
  pages_cover threeRows oneByOne (by decide) (by decide) dated_threeRows

example : (walk (threeRows.readPage oneByOne) "" 4 "").map (·.map (·.map TradeRow.id)) =
    some [[3], [2], [1], []] := by decide +kernel

end Journal

end SuperAgent.Platform
