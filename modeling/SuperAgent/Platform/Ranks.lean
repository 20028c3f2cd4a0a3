import SuperAgent.Core.Paging
import SuperAgent.Platform.Standings

/-!
# Ranks in the journal

One query groups the wallets of a board, sorts and cuts them; another counts the
wallets that traded more than one of them. A rank is therefore the place of the
first wallet that traded as much.
-/

namespace SuperAgent.Platform

open Fixed (D)

namespace Journal

variable {j : Journal} {strategy wallet : String} {since till : Time}

/-- What a wallet traded in a span of time, in units of the sixteenth place. -/
def tradedBy (j : Journal) (strategy : String) (since till : Time) (wallet : String) : Int :=
  turnover (itemsOf Traded.wallet (j.traded strategy since till) wallet)

/-- A board in full. -/
def fullBoard (j : Journal) (strategy : String) (since till : Time) : List VolumeStanding :=
  boardOf (j.traded strategy since till)

/-! ## Pages -/

/-- A wallet's place among those that traded more, as much and less than it, and its line. -/
structure Placed (j : Journal) (strategy : String) (since till : Time) (wallet : String)
    (more tied less : List VolumeStanding) (line : VolumeStanding) : Prop where
  board : j.fullBoard strategy since till = more ++ (tied ++ less)
  above : ∀ l ∈ more,
    j.tradedBy strategy since till wallet < j.tradedBy strategy since till l.wallet
  equal : ∀ l ∈ tied,
    j.tradedBy strategy since till l.wallet = j.tradedBy strategy since till wallet
  below : ∀ l ∈ less,
    j.tradedBy strategy since till l.wallet < j.tradedBy strategy since till wallet
  mem : line ∈ tied
  named : line.wallet = wallet

/-- The lines of some wallets of a board. -/
def linesOf (j : Journal) (strategy : String) (since till : Time) (p : Int → Bool) :
    List VolumeStanding :=
  ((ranked (j.traded strategy since till)).filter fun w => p (j.tradedBy strategy since till w)).map
    fun w => readLine w (itemsOf Traded.wallet (j.traded strategy since till) w)

/-- A row that was closed at once. -/
def roundTrip (id : Nat) (wallet : String) (size price : D) : TradeRow :=
  ⟨id, wallet, "rsi", "BTC", toString id, .long, size, price, 0, none, ⟨none, none, none, none⟩,
    epoch, some ⟨toString id, 0, epoch, price, 0, 0, .manual, none, none⟩⟩

/-- Of three wallets, one traded more than the other two. -/
def threeTrips : Journal :=
  ⟨[roundTrip 1 "0xb" Fixed.scale 500, roundTrip 2 "0xa" Fixed.scale 500,
    roundTrip 3 "0xc" Fixed.scale 700], 4⟩

end Journal

end SuperAgent.Platform
