import Mathlib.Data.Fintype.BigOperators
import SuperAgent.Core.Folding
import SuperAgent.Core.Run
import SuperAgent.Core.Table
import SuperAgent.Fixed.Parse

/-!
# Inviting a friend

A wallet has one code, minted the first time it asks, and a friend who arrives
on a code is attributed once, for good. Both are rows of the store. A call is a
few statements of its own, and those of other calls run between them; an answer
may be lost after its statement took effect, and the process may end.
-/

namespace SuperAgent.Platform

open Fixed

/-! ## Codes -/

/-- How long a code is. -/
def codeLength : ℕ := 6

/-- The letters of a code, without those that are misread aloud. -/
def codeAlphabet : List Char := "ABCDEFGHJKLMNPQRSTUVWXYZ23456789".toList

theorem length_codeAlphabet : codeAlphabet.length = 32 := by decide

theorem letter_lt (v : Fin 256) : v.val % codeAlphabet.length < codeAlphabet.length :=
  Nat.mod_lt _ (by decide)

/-- The letter a random byte mints. -/
def codeLetter (v : Fin 256) : Char := codeAlphabet.get ⟨v.val % codeAlphabet.length, letter_lt v⟩

/-- Mints a code from random bytes. -/
def newCode (b : Fin codeLength → Fin 256) : String :=
  String.ofList (List.ofFn fun i => codeLetter (b i))

/-- What a letter of a typed code is replaced with. -/
def replaceLetter : Char → Option Char
  | 'O' => some '0'
  | 'I' => some '1'
  | '-' => none
  | ' ' => none
  | c => some c

/-- How a code is compared. -/
def normalizeCode (code : String) : String :=
  String.ofList ((toUpper (trimSpace code)).toList.filterMap replaceLetter)

example : normalizeCode " ab-c2 3x " = "ABC23X" := by decide
example : normalizeCode "abcooo" = "ABC000" := by decide

/-- What someone types spells a code: its letters in either case, with hyphens and spaces anywhere
and white space around. -/
def Spells (typed code : String) : Prop :=
  ((trimSpace typed).toList.filter fun c => c ≠ '-' ∧ c ≠ ' ').map Char.toUpper = code.toList

instance (typed code : String) : Decidable (Spells typed code) :=
  inferInstanceAs (Decidable (_ = _))

/-- What capital letters are to a letter is known from the first hundred and twenty-three. -/
theorem toUpper_cases {P : Char → Char → Prop} (c : Char) (hsame : ∀ c, P c c)
    (hsmall : ∀ n < 123, P (Char.ofNat n) (Char.ofNat n).toUpper) : P c c.toUpper := by
  by_cases hc : 'a'.val ≤ c.val ∧ c.val ≤ 'z'.val
  · have hrange : c.toNat < 123 := Nat.lt_succ_of_le (UInt32.le_iff_toNat_le.mp hc.2)
    have hn := hsmall c.toNat hrange
    rwa [Char.ofNat_toNat] at hn
  · rw [show c.toUpper = c from dif_neg hc]
    exact hsame c

theorem toUpper_mark (c : Char) : (c.toUpper = '-' ↔ c = '-') ∧ (c.toUpper = ' ' ↔ c = ' ') :=
  toUpper_cases (P := fun c d => (d = '-' ↔ c = '-') ∧ (d = ' ' ↔ c = ' ')) c
    (fun _ => ⟨Iff.rfl, Iff.rfl⟩) (by decide)

theorem replaced_iff {cs code : List Char} (hcode : ∀ c ∈ code, c ∈ codeAlphabet) :
    (cs.map Char.toUpper).filterMap replaceLetter = code ↔
      (cs.filter fun c => c ≠ '-' ∧ c ≠ ' ').map Char.toUpper = code := by
  induction cs generalizing code with
  | nil => exact Iff.rfl
  | cons c cs ih =>
    obtain ⟨hhyphen, hspace⟩ := toUpper_mark c
    by_cases hmark : c = '-' ∨ c = ' '
    · -- Both sides leave the letter out.
      have hout : replaceLetter c.toUpper = none := by
        rcases hmark with rfl | rfl <;> rfl
      have hdrop : ¬ (c ≠ '-' ∧ c ≠ ' ') := fun h => hmark.elim h.1 h.2
      rw [List.map_cons, List.filterMap_cons_none hout,
        List.filter_cons_of_neg (by simpa using hdrop)]
      exact ih hcode
    · have hkeep : c ≠ '-' ∧ c ≠ ' ' := not_or.mp hmark
      rw [List.map_cons, List.filter_cons_of_pos (by simpa using hkeep), List.map_cons]
      by_cases hear : c.toUpper = 'O' ∨ c.toUpper = 'I'
      · -- Neither the letter nor what it is replaced with is in a code.
        obtain ⟨x, hx, hnot⟩ : ∃ x, replaceLetter c.toUpper = some x ∧ x ∉ codeAlphabet := by
          rcases hear with h | h
          · exact ⟨'0', by rw [h]; rfl, by decide⟩
          · exact ⟨'1', by rw [h]; rfl, by decide⟩
        have hletter : c.toUpper ∉ codeAlphabet := by
          rcases hear with h | h
          · rw [h]
            decide
          · rw [h]
            decide
        rw [List.filterMap_cons_some hx]
        refine ⟨?_, ?_⟩
        · rintro rfl
          exact absurd (hcode x List.mem_cons_self) hnot
        · rintro rfl
          exact absurd (hcode _ List.mem_cons_self) hletter
      · have hsame : replaceLetter c.toUpper = some c.toUpper := by
          have hear' := not_or.mp hear
          have hmark' := not_or.mp hmark
          unfold replaceLetter
          split
          · next h => exact absurd h hear'.1
          · next h => exact absurd h hear'.2
          · next h => exact absurd (hhyphen.mp h) hmark'.1
          · next h => exact absurd (hspace.mp h) hmark'.2
          · rfl
        rw [List.filterMap_cons_some hsame]
        cases code with
        | nil => simp
        | cons x code =>
          rw [List.cons.injEq, List.cons.injEq, ih fun y hy => hcode y (List.mem_cons_of_mem x hy)]

theorem codeLetter_mem (v : Fin 256) : codeLetter v ∈ codeAlphabet := List.get_mem _ _

/-- A typed code is compared equal to a minted one exactly when it spells it. -/
theorem normalizeCode_eq_iff (b : Fin codeLength → Fin 256) {typed : String} :
    normalizeCode typed = newCode b ↔ Spells typed (newCode b) := by
  have hcode : ∀ c ∈ (newCode b).toList, c ∈ codeAlphabet := by
    intro c hc
    rw [newCode, String.toList_ofList, List.mem_ofFn] at hc
    obtain ⟨i, rfl⟩ := hc
    exact codeLetter_mem (b i)
  rw [← String.toList_inj, normalizeCode, toUpper, String.toList_ofList, String.toList_ofList]
  exact replaced_iff hcode

/-- Whose a code is. -/
structure CodeRow where
  code : String
  wallet : String
  deriving DecidableEq

/-- Who brought a wallet, and on which code. -/
structure ReferralRow where
  wallet : String
  referrer : String
  code : String
  deriving DecidableEq

/-- What the store keeps of invites. -/
structure Invites where
  codes : List CodeRow
  referrals : List ReferralRow

/-- A trade of the journal, of which only what was opened counts here. -/
structure Opened where
  wallet : String
  size : D
  entryPrice : D

/-- One friend, as the invite screen shows them. -/
structure Referral where
  wallet : String
  trades : ℕ
  volume : D

namespace Invites

variable (d : Invites)

/-- `select code from referral_codes where wallet = $1`. -/
def selectCode (wallet : String) : Option String :=
  (Table.row CodeRow.wallet wallet d.codes).map CodeRow.code

/-- `insert into referral_codes … on conflict (wallet) do update … returning code`: the wallet's own
row wins, and a code that is taken violates the primary key. -/
def insertCode (candidate wallet : String) : Option String × Invites :=
  match d.selectCode wallet with
  | some code => (some code, d)
  | none =>
    if (Table.row CodeRow.code candidate d.codes).isSome then (none, d)
    else (some candidate, { d with codes := d.codes ++ [⟨candidate, wallet⟩] })

/-- Resolves a code to the wallet that owns it. -/
def walletForCode (code : String) : Option String :=
  (Table.row CodeRow.code code d.codes).map CodeRow.wallet

/-- Who brought a wallet, if anyone did. -/
def referrerOf (wallet : String) : Option String :=
  (Table.row ReferralRow.wallet (toLower wallet) d.referrals).map ReferralRow.referrer

/-- Attributes a wallet to a referrer, once, and reports whether this call did. -/
def saveReferral (wallet referrer code : String) : Bool × Invites :=
  if (Table.row ReferralRow.wallet (toLower wallet) d.referrals).isSome then (false, d)
  else (true, { d with referrals := d.referrals ++ [⟨toLower wallet, toLower referrer, code⟩] })

/-- A sum of products rounded to eight places, half away from zero, as the database rounds. -/
def roundVolume (sum : ℤ) : ℤ := sum.sign * ((sum.natAbs + 10 ^ exp / 2) / 10 ^ exp : ℕ)

/-- What a wallet has traded. A volume no decimal can hold is shown as nothing. -/
def traded (journal : List Opened) (wallet : String) : Referral :=
  let ts := journal.filter fun t => t.wallet = wallet
  let sum := (ts.map fun t => t.size.toInt * t.entryPrice.toInt).sum
  ⟨wallet, ts.length, (parse (numericText (roundVolume sum))).toOption.getD 0⟩

/-- The friends a wallet brought, newest first, with what each has traded. -/
def referralsOf (journal : List Opened) (referrer : String) : List Referral :=
  ((d.referrals.filter fun r => r.referrer = toLower referrer).reverse.map ReferralRow.wallet).map
    (traded journal)

end Invites

/-! ## What is earned -/

/-- The part of the builder fee that goes to whoever brought the trader. -/
def referralShare : D := 30000000

/-- The share of the builder fee on a volume. -/
def earnedOn (volume feeBps : D) : Option D :=
  if ¬ 0 < volume ∨ ¬ 0 < feeBps then some 0
  else do
    let fee ← div (← mul volume feeBps) (fromInt 10000)
    mul fee referralShare

/-- A friend with what they have earned the wallet. -/
structure Friend where
  referral : Referral
  earned : D

/-- What the invite screen shows. -/
structure InviteScreen where
  code : String
  link : String
  feeBps : D
  friends : List Friend
  volume : D
  earned : D
  referredBy : String

/-- Where a friend goes. -/
def inviteLink (code : String) : String := "https://inflight.work/i/" ++ code

/-- The friends with what each has earned, and what they traded and earned together. A product that
does not fit panics. -/
def tallyFriends (feeBps : D) (friends : List Referral) : Option (List Friend × D × D) :=
  friends.foldlM (fun (acc : List Friend × D × D) f => do
    let e ← earnedOn f.volume feeBps
    return (acc.1 ++ [⟨f, e⟩], acc.2.1 + f.volume, acc.2.2 + e)) ([], 0, 0)

/-- The screen of a wallet. -/
def inviteScreen (code : String) (feeBps : D) (friends : List Referral) (referredBy : String) :
    Option InviteScreen := do
  let (shown, volume, earned) ← tallyFriends feeBps friends
  return ⟨code, inviteLink code, feeBps, shown, volume, earned, referredBy⟩

/-! ## Calls -/

/-- Why a call is refused. -/
inductive InviteError
  | ownAccountDisabled
  | codeRequired
  | noSuchCode
  | invitesItself
  | failed
  deriving DecidableEq

/-- Where a call is. -/
inductive InviteStage
  | uncalled
  | refused (e : InviteError)
  /-- About to look its code up. -/
  | selecting (wallet : String)
  /-- About to insert a candidate, after some that were taken. -/
  | minting (wallet : String) (tries : ℕ)
  | coded (wallet code : String)
  | listed (wallet code : String) (friends : List Referral)
  | invited (wallet : String) (screen : InviteScreen)
  /-- About to resolve a code. -/
  | resolving (wallet code : String)
  | resolved (wallet code referrer : String)
  | saved (wallet : String) (attributed : Bool)
  | claimed (wallet : String) (attributed : Bool) (referredBy : String)
  /-- Its process ended. -/
  | lost

/-- What comes next in a call: it is made, its next statement runs, runs with its answer lost, or
does not run. -/
inductive InviteMove
  | referral (header : String)
  | claimReferral (header code : String)
  | query
  | mint (b : Fin codeLength → Fin 256)
  | list (journal : List Opened)
  | show (feeBps : D) (read : Bool)
  | severed (b : Fin codeLength → Fin 256)
  | broken

/-- How many candidates a call tries. -/
def mintTries : ℕ := 8

/-- The wallet a request is about. -/
def referralWallet (header : String) : Option String :=
  let addr := toLower (trimSpace header)
  if addr = "" then none else some addr

/-- The next statement of a call. -/
def InviteStage.advance (d : Invites) : InviteStage → InviteMove → Option (Invites × InviteStage)
  | .uncalled, .referral header =>
    match referralWallet header with
    | none => some (d, .refused .ownAccountDisabled)
    | some wallet => some (d, .selecting wallet)
  | .uncalled, .claimReferral header code =>
    match referralWallet header with
    | none => some (d, .refused .ownAccountDisabled)
    | some wallet =>
      if normalizeCode code = "" then some (d, .refused .codeRequired)
      else some (d, .resolving wallet (normalizeCode code))
  | .selecting wallet, .query =>
    match d.selectCode (toLower (trimSpace wallet)) with
    | some code => some (d, .coded wallet code)
    | none => some (d, .minting wallet 0)
  | .minting wallet tries, .mint b =>
    match d.insertCode (newCode b) (toLower (trimSpace wallet)) with
    | (some code, d') => some (d', .coded wallet code)
    | (none, d') =>
      if tries + 1 < mintTries then some (d', .minting wallet (tries + 1))
      else some (d', .refused .failed)
  | .coded wallet code, .list journal =>
    some (d, .listed wallet code (d.referralsOf journal wallet))
  -- Who brought the wallet is left out of the answer when it cannot be read.
  | .listed wallet code friends, .show feeBps read =>
    match inviteScreen code feeBps friends (if read then (d.referrerOf wallet).getD "" else "") with
    | some screen => some (d, .invited wallet screen)
    | none => some (d, .refused .failed)
  | .resolving wallet code, .query =>
    match d.walletForCode code with
    | none => some (d, .refused .noSuchCode)
    | some referrer =>
      if equalFold referrer wallet then some (d, .refused .invitesItself)
      else some (d, .resolved wallet code referrer)
  | .resolved wallet code referrer, .query =>
    let (attributed, d') := d.saveReferral wallet referrer code
    some (d', .saved wallet attributed)
  | .saved wallet attributed, .query =>
    some (d, .claimed wallet attributed ((d.referrerOf wallet).getD ""))
  -- An answer that is lost fails the call, and what its statement wrote stays.
  | .minting wallet _, .severed b =>
    some ((d.insertCode (newCode b) (toLower (trimSpace wallet))).2, .refused .failed)
  | .resolved wallet code referrer, .severed _ =>
    some ((d.saveReferral wallet referrer code).2, .refused .failed)
  | .selecting _, .broken => some (d, .refused .failed)
  | .minting _ _, .broken => some (d, .refused .failed)
  | .coded _ _, .broken => some (d, .refused .failed)
  | .resolving _ _, .broken => some (d, .refused .failed)
  | .resolved _ _ _, .broken => some (d, .refused .failed)
  | .saved wallet attributed, .broken => some (d, .claimed wallet attributed "")
  | _, _ => none

/-- What is left of a call when its process ends. -/
def InviteStage.cut : InviteStage → InviteStage
  | .uncalled => .uncalled
  | .refused e => .refused e
  | .invited wallet screen => .invited wallet screen
  | .claimed wallet attributed referredBy => .claimed wallet attributed referredBy
  | _ => .lost

/-- The store, and the calls on it. -/
structure InviteDesk where
  store : Invites
  calls : ℕ → InviteStage

/-- What happens next. -/
inductive InviteAction
  | call (i : ℕ) (move : InviteMove)
  | restart

namespace InviteDesk

/-- An empty store before the first call. -/
def start : InviteDesk := ⟨⟨[], []⟩, fun _ => .uncalled⟩

def step (s : InviteDesk) : InviteAction → Option InviteDesk
  | .call i move =>
    ((s.calls i).advance s.store move).map fun p => ⟨p.1, Function.update s.calls i p.2⟩
  | .restart => some ⟨s.store, fun i => (s.calls i).cut⟩

end InviteDesk

/-! ## What the rows say -/

namespace Invites

variable {d d' d'' : Invites} {wallet referrer code candidate : String} {attributed : Bool}

/-- Rows are only added. -/
structure Extends (d d' : Invites) : Prop where
  codes : d.codes ⊆ d'.codes
  referrals : d.referrals ⊆ d'.referrals

theorem Extends.refl (d : Invites) : d.Extends d := ⟨List.Subset.refl _, List.Subset.refl _⟩

theorem Extends.trans (h : d.Extends d') (h' : d'.Extends d'') : d.Extends d'' :=
  ⟨List.Subset.trans h.codes h'.codes, List.Subset.trans h.referrals h'.referrals⟩

/-- No wallet has two codes or two referrers, no code two wallets, and a friend was brought by
another wallet, on its code. -/
structure Sound (d : Invites) : Prop where
  codes : Table.Unique CodeRow.code d.codes
  wallets : Table.Unique CodeRow.wallet d.codes
  minted : ∀ r ∈ d.codes, ∃ b, r.code = newCode b
  named : ∀ r ∈ d.codes, folded r.wallet = r.wallet
  friends : Table.Unique ReferralRow.wallet d.referrals
  lowered : ∀ r ∈ d.referrals, toLower r.wallet = r.wallet
  owned : ∀ r ∈ d.referrals, ⟨r.code, r.referrer⟩ ∈ d.codes ∧ r.wallet ≠ r.referrer

theorem mem_of_selectCode (h : d.selectCode wallet = some code) : ⟨code, wallet⟩ ∈ d.codes := by
  obtain ⟨r, hr, rfl⟩ := Option.map_eq_some_iff.mp h
  obtain ⟨hmem, rfl⟩ := Table.mem_of_row hr
  exact hmem

theorem mem_of_walletForCode (h : d.walletForCode code = some wallet) :
    ⟨code, wallet⟩ ∈ d.codes := by
  obtain ⟨r, hr, rfl⟩ := Option.map_eq_some_iff.mp h
  obtain ⟨hmem, rfl⟩ := Table.mem_of_row hr
  exact hmem

theorem Sound.walletForCode (hd : d.Sound) (h : ⟨code, wallet⟩ ∈ d.codes) :
    d.walletForCode code = some wallet := by
  rw [Invites.walletForCode, hd.codes.row_self h]
  rfl

theorem mem_of_referrerOf (h : d.referrerOf wallet = some referrer) :
    ∃ r ∈ d.referrals, r.wallet = toLower wallet ∧ r.referrer = referrer := by
  obtain ⟨r, hr, rfl⟩ := Option.map_eq_some_iff.mp h
  obtain ⟨hmem, hwallet⟩ := Table.mem_of_row hr
  exact ⟨r, hmem, hwallet, rfl⟩

theorem Sound.referrerOf (hd : d.Sound) {r : ReferralRow} (hr : r ∈ d.referrals)
    (hwallet : r.wallet = toLower wallet) : d.referrerOf wallet = some r.referrer := by
  rw [Invites.referrerOf, ← hwallet, hd.friends.row_self hr]
  rfl

/-- Who brought a wallet is not forgotten. -/
theorem Sound.referrerOf_mono (hd' : d'.Sound) (he : d.Extends d')
    (h : d.referrerOf wallet = some referrer) : d'.referrerOf wallet = some referrer := by
  obtain ⟨r, hr, hwallet, rfl⟩ := mem_of_referrerOf h
  exact hd'.referrerOf (he.referrals hr) hwallet

/-- The wallet has the code that is returned, and nothing else changed; or the candidate is taken,
and nothing did. -/
theorem Sound.insertCode (hd : d.Sound) {b : Fin codeLength → Fin 256}
    (hwallet : folded wallet = wallet) :
    d.Extends (d.insertCode (newCode b) wallet).2 ∧ (d.insertCode (newCode b) wallet).2.Sound ∧
      ∀ code, (d.insertCode (newCode b) wallet).1 = some code →
        ⟨code, wallet⟩ ∈ (d.insertCode (newCode b) wallet).2.codes := by
  unfold Invites.insertCode
  split
  · next code hcode =>
    refine ⟨.refl d, hd, ?_⟩
    rintro _ ⟨⟩
    exact mem_of_selectCode hcode
  · next hnone =>
    split
    · exact ⟨.refl d, hd, fun code h => by cases h⟩
    · next hfree =>
      have hcode : Table.row CodeRow.code (newCode b) d.codes = none := by simpa using hfree
      have hnew : Table.row CodeRow.wallet wallet d.codes = none := Option.map_eq_none_iff.mp hnone
      refine ⟨⟨List.subset_append_left _ _, List.Subset.refl _⟩, ?_, ?_⟩
      · constructor
        · exact hd.codes.append hcode
        · exact hd.wallets.append hnew
        · intro r hr
          rcases List.mem_append.mp hr with hr | hr
          · exact hd.minted r hr
          · exact ⟨b, by rw [List.mem_singleton.mp hr]⟩
        · intro r hr
          rcases List.mem_append.mp hr with hr | hr
          · exact hd.named r hr
          · rw [List.mem_singleton.mp hr, hwallet]
        · exact hd.friends
        · exact hd.lowered
        · intro r hr
          exact ⟨List.mem_append_left _ (hd.owned r hr).1, (hd.owned r hr).2⟩
      · rintro _ ⟨⟩
        exact List.mem_append_right _ (List.mem_singleton_self _)

/-- A wallet that was not brought by anyone is brought by the owner of the code. -/
theorem Sound.saveReferral (hd : d.Sound) (hcode : ⟨code, referrer⟩ ∈ d.codes)
    (hother : equalFold referrer wallet = false) :
    d.Extends (d.saveReferral wallet referrer code).2 ∧
      (d.saveReferral wallet referrer code).2.Sound ∧
      ((d.saveReferral wallet referrer code).2.referrerOf wallet).isSome ∧
      ((d.saveReferral wallet referrer code).1 = true → d.referrerOf wallet = none) := by
  unfold Invites.saveReferral
  split
  · next hrow =>
    refine ⟨.refl d, hd, ?_, fun h => by cases h⟩
    rwa [Invites.referrerOf, Option.isSome_map]
  · next hrow =>
    have hnone : Table.row ReferralRow.wallet (toLower wallet) d.referrals = none := by
      simpa using hrow
    have hname : folded referrer = referrer := hd.named ⟨code, referrer⟩ hcode
    have hlower : toLower referrer = referrer :=
      (congrArg toLower hname.symm).trans ((toLower_folded referrer).trans hname)
    have hne : toLower wallet ≠ toLower referrer := by
      intro heq
      rw [equalFold_iff_toLower.mpr heq.symm] at hother
      cases hother
    refine ⟨⟨List.Subset.refl _, List.subset_append_left _ _⟩, ?_, ?_, ?_⟩
    · refine ⟨hd.codes, hd.wallets, hd.minted, hd.named, hd.friends.append hnone, ?_, ?_⟩
      · intro r hr
        rcases List.mem_append.mp hr with hr | hr
        · exact hd.lowered r hr
        · rw [List.mem_singleton.mp hr, toLower_toLower]
      · intro r hr
        rcases List.mem_append.mp hr with hr | hr
        · exact hd.owned r hr
        · rw [List.mem_singleton.mp hr]
          refine ⟨?_, hne⟩
          rwa [hlower]
    · rw [Invites.referrerOf, Table.row_append_singleton, hnone, if_pos rfl]
      rfl
    · intro _
      rw [Invites.referrerOf, hnone]
      rfl

/-- Friends who are shown to a wallet are those it brought, each once. -/
def Brought (d : Invites) (referrer : String) (friends : List Referral) : Prop :=
  (friends.map Referral.wallet).Nodup ∧
    ∀ f ∈ friends, ∃ r ∈ d.referrals, r.wallet = f.wallet ∧ r.referrer = toLower referrer

theorem Brought.mono {friends : List Referral} (h : d.Brought referrer friends)
    (he : d.Extends d') : d'.Brought referrer friends := by
  refine ⟨h.1, fun f hf => ?_⟩
  obtain ⟨r, hr, hrow⟩ := h.2 f hf
  exact ⟨r, he.referrals hr, hrow⟩

theorem Sound.brought (hd : d.Sound) (journal : List Opened) (referrer : String) :
    d.Brought referrer (d.referralsOf journal referrer) := by
  have hwallets : (d.referralsOf journal referrer).map Referral.wallet =
      ((d.referrals.filter fun r => r.referrer = toLower referrer).map
        ReferralRow.wallet).reverse := by
    simp [Invites.referralsOf, traded, Function.comp_def]
  refine ⟨?_, fun f hf => ?_⟩
  · rw [hwallets, List.nodup_reverse]
    exact hd.friends.sublist (List.filter_sublist.map _)
  · obtain ⟨wallet, hwallet, rfl⟩ := List.mem_map.mp hf
    obtain ⟨r, hr, rfl⟩ := List.mem_map.mp hwallet
    obtain ⟨hrow, heq⟩ := List.mem_filter.mp (List.mem_reverse.mp hr)
    exact ⟨r, hrow, rfl, of_decide_eq_true heq⟩

end Invites

/-! ## What a call knows -/

theorem tallyFriends_referrals {feeBps : D} {friends : List Referral} {shown : List Friend}
    {volume earned : D} (h : tallyFriends feeBps friends = some (shown, volume, earned)) :
    shown.map Friend.referral = friends := by
  have hfold : ∀ (acc : List Friend × D × D) out,
      friends.foldlM (fun (acc : List Friend × D × D) f => do
        let e ← earnedOn f.volume feeBps
        return (acc.1 ++ [⟨f, e⟩], acc.2.1 + f.volume, acc.2.2 + e)) acc = some out →
      out.1.map Friend.referral = acc.1.map Friend.referral ++ friends := by
    clear h
    induction friends with
    | nil =>
      rintro acc _ ⟨⟩
      exact (List.append_nil _).symm
    | cons f friends ih =>
      intro acc out h
      rw [List.foldlM_cons] at h
      obtain ⟨acc', hstep, hrest⟩ := Option.bind_eq_some_iff.mp h
      obtain ⟨e, -, heq⟩ := Option.bind_eq_some_iff.mp hstep
      obtain rfl := Option.some.inj heq
      simpa using ih _ _ hrest
  exact hfold _ _ h

/-- A screen shows the code and the friends it is made for. -/
theorem inviteScreen_spec {code referredBy : String} {feeBps : D} {friends : List Referral}
    {screen : InviteScreen} (h : inviteScreen code feeBps friends referredBy = some screen) :
    screen.code = code ∧ screen.friends.map Friend.referral = friends ∧
      screen.referredBy = referredBy := by
  obtain ⟨⟨shown, volume, earned⟩, htally, heq⟩ := Option.bind_eq_some_iff.mp h
  obtain rfl := Option.some.inj heq
  exact ⟨rfl, tallyFriends_referrals htally, rfl⟩

namespace InviteStage

variable {d d' : Invites} {stage stage' : InviteStage} {move : InviteMove} {wallet : String}

/-- An answer names whoever brought the wallet, or nobody when that could not be read. -/
def Names (d : Invites) (wallet by_ : String) : Prop := by_ ≠ "" → d.referrerOf wallet = some by_

theorem names_getD (d : Invites) (wallet : String) :
    Names d wallet ((d.referrerOf wallet).getD "") := by
  intro hne
  cases h : d.referrerOf wallet with
  | none => exact absurd (by rw [h]; rfl) hne
  | some r => rfl

/-- What is known of where a call is. -/
def Fits (d : Invites) : InviteStage → Prop
  | .coded wallet code => ⟨code, folded wallet⟩ ∈ d.codes
  | .listed wallet code friends => ⟨code, folded wallet⟩ ∈ d.codes ∧ d.Brought wallet friends
  | .invited wallet screen => ⟨screen.code, folded wallet⟩ ∈ d.codes ∧
      d.Brought wallet (screen.friends.map Friend.referral) ∧ Names d wallet screen.referredBy
  | .resolved wallet code referrer => ⟨code, referrer⟩ ∈ d.codes ∧ equalFold referrer wallet = false
  | .saved wallet _ => (d.referrerOf wallet).isSome
  | .claimed wallet _ referredBy => (d.referrerOf wallet).isSome ∧ Names d wallet referredBy
  | _ => True

/-- Calls that attributed a wallet. -/
def Credits (wallet : String) : InviteStage → Prop
  | .saved w attributed => w = wallet ∧ attributed = true
  | .claimed w attributed _ => w = wallet ∧ attributed = true
  | _ => False

/-- Answers that tell who brought a wallet: its own, or the list of the one who did. -/
def Tells (w r : String) : InviteStage → Prop
  | .claimed wallet _ referredBy => wallet = w ∧ referredBy = r ∧ r ≠ ""
  | .invited wallet screen => wallet = w ∧ screen.referredBy = r ∧ r ≠ "" ∨
      toLower wallet = r ∧ ∃ f ∈ screen.friends, f.referral.wallet = w
  | _ => False

theorem Tells.referrerOf {w r : String} (h : stage.Tells w r) (hd : d.Sound) (hf : stage.Fits d) :
    d.referrerOf w = some r := by
  cases stage with
  | claimed wallet attributed referredBy =>
    obtain ⟨rfl, rfl, hne⟩ := h
    exact hf.2 hne
  | invited wallet screen =>
    rcases h with ⟨rfl, rfl, hne⟩ | ⟨rfl, f, hfriend, rfl⟩
    · exact hf.2.2 hne
    · obtain ⟨row, hrow, hwallet, hreferrer⟩ := hf.2.1.2 f.referral (List.mem_map_of_mem hfriend)
      rw [← hreferrer]
      apply hd.referrerOf hrow
      rw [← hwallet, hd.lowered row hrow]
  | _ => exact h.elim

theorem Fits.mono (h : stage.Fits d) (hd' : d'.Sound) (he : d.Extends d') : stage.Fits d' := by
  have hnames {w by_ : String} (hn : Names d w by_) : Names d' w by_ := fun hne =>
    hd'.referrerOf_mono he (hn hne)
  have hsome {w : String} (hs : (d.referrerOf w).isSome) : (d'.referrerOf w).isSome := by
    obtain ⟨r, hr⟩ := Option.isSome_iff_exists.mp hs
    rw [hd'.referrerOf_mono he hr]
    rfl
  cases stage with
  | coded wallet code => exact he.codes h
  | listed wallet code friends => exact ⟨he.codes h.1, h.2.mono he⟩
  | invited wallet screen => exact ⟨he.codes h.1, h.2.1.mono he, hnames h.2.2⟩
  | resolved wallet code referrer => exact ⟨he.codes h.1, h.2⟩
  | saved wallet attributed => exact hsome h
  | claimed wallet attributed referredBy => exact ⟨hsome h.1, hnames h.2⟩
  | _ => trivial

theorem Fits.cut (h : stage.Fits d) : stage.cut.Fits d := by
  cases stage <;> first | exact h | trivial

theorem Credits.of_cut (h : stage.cut.Credits wallet) : stage.Credits wallet := by
  cases stage <;> first | exact h | exact h.elim

theorem Credits.referrerOf (h : stage.Credits wallet) (hf : stage.Fits d) :
    (d.referrerOf wallet).isSome := by
  cases stage with
  | saved w attributed =>
    obtain ⟨rfl, -⟩ := h
    exact hf
  | claimed w attributed referredBy =>
    obtain ⟨rfl, -⟩ := h
    exact hf.1
  | _ => exact h.elim

/-- A statement adds rows at most, keeps what they say, and leaves the call where it may be. A call
that attributes a wallet did so before, or finds it brought by nobody. -/
theorem advance_spec (hd : d.Sound) (hf : stage.Fits d)
    (h : stage.advance d move = some (d', stage')) :
    d.Extends d' ∧ d'.Sound ∧ stage'.Fits d' ∧
      ∀ w, stage'.Credits w → stage.Credits w ∨ d.referrerOf w = none := by
  have hread {stage'' : InviteStage} (heq : some (d, stage'') = some (d', stage'))
      (hfits : stage''.Fits d) (hno : ∀ w, ¬ stage''.Credits w) : d.Extends d' ∧ d'.Sound ∧
        stage'.Fits d' ∧ ∀ w, stage'.Credits w → stage.Credits w ∨ d.referrerOf w = none := by
    obtain ⟨rfl, rfl⟩ := Prod.mk.inj (Option.some.inj heq)
    exact ⟨.refl d, hd, hfits, fun w hw => absurd hw (hno w)⟩
  unfold advance at h
  split at h
  · split at h
    · exact hread h trivial (fun _ => id)
    · exact hread h trivial (fun _ => id)
  · split at h
    · exact hread h trivial (fun _ => id)
    · split at h
      · exact hread h trivial (fun _ => id)
      · exact hread h trivial (fun _ => id)
  · split at h
    · next code hcode => exact hread h (Invites.mem_of_selectCode hcode) (fun _ => id)
    · exact hread h trivial (fun _ => id)
  · next wallet tries b =>
    obtain ⟨he, hd', hrow⟩ := hd.insertCode (b := b) (folded_folded wallet)
    rw [folded] at he hd' hrow
    split at h
    · next code d'' hinsert =>
      obtain ⟨rfl, rfl⟩ := Prod.mk.inj (Option.some.inj h)
      rw [hinsert] at he hd' hrow
      exact ⟨he, hd', hrow code rfl, fun w hw => hw.elim⟩
    · next d'' hinsert =>
      rw [hinsert] at he hd'
      split at h
      · obtain ⟨rfl, rfl⟩ := Prod.mk.inj (Option.some.inj h)
        exact ⟨he, hd', trivial, fun w hw => hw.elim⟩
      · obtain ⟨rfl, rfl⟩ := Prod.mk.inj (Option.some.inj h)
        exact ⟨he, hd', trivial, fun w hw => hw.elim⟩
  · next wallet code journal => exact hread h ⟨hf, hd.brought journal wallet⟩ (fun _ => id)
  · next wallet code friends feeBps read =>
    split at h
    · next screen hscreen =>
      obtain ⟨hcode, hfriends, hby⟩ := inviteScreen_spec hscreen
      refine hread h ⟨?_, ?_, ?_⟩ (fun _ => id)
      · rw [hcode]
        exact hf.1
      · rw [hfriends]
        exact hf.2
      · rw [hby]
        cases read
        · exact fun hne => absurd rfl hne
        · exact names_getD d wallet
    · exact hread h trivial (fun _ => id)
  · split at h
    · exact hread h trivial (fun _ => id)
    · next referrer hreferrer =>
      split at h
      · exact hread h trivial (fun _ => id)
      · next hother =>
        exact hread h ⟨Invites.mem_of_walletForCode hreferrer, by simpa using hother⟩ (fun _ => id)
  · next wallet code referrer =>
    obtain ⟨he, hd', hrow, hfirst⟩ := hd.saveReferral hf.1 hf.2
    obtain ⟨rfl, rfl⟩ := Prod.mk.inj (Option.some.inj h)
    refine ⟨he, hd', hrow, ?_⟩
    rintro w ⟨rfl, hattributed⟩
    exact .inr (hfirst hattributed)
  · next wallet attributed =>
    obtain ⟨rfl, rfl⟩ := Prod.mk.inj (Option.some.inj h)
    exact ⟨.refl d, hd, ⟨hf, names_getD d wallet⟩, fun w hw => .inl hw⟩
  · next wallet tries b =>
    obtain ⟨he, hd', -⟩ := hd.insertCode (b := b) (folded_folded wallet)
    obtain ⟨rfl, rfl⟩ := Prod.mk.inj (Option.some.inj h)
    exact ⟨he, hd', trivial, fun w hw => hw.elim⟩
  · next wallet code referrer b =>
    obtain ⟨he, hd', -⟩ := hd.saveReferral hf.1 hf.2
    obtain ⟨rfl, rfl⟩ := Prod.mk.inj (Option.some.inj h)
    exact ⟨he, hd', trivial, fun w hw => hw.elim⟩
  · exact hread h trivial (fun _ => id)
  · exact hread h trivial (fun _ => id)
  · exact hread h trivial (fun _ => id)
  · exact hread h trivial (fun _ => id)
  · exact hread h trivial (fun _ => id)
  · next wallet attributed =>
    obtain ⟨rfl, rfl⟩ := Prod.mk.inj (Option.some.inj h)
    exact ⟨.refl d, hd, ⟨hf, fun hne => absurd rfl hne⟩, fun w hw => .inl hw⟩
  · cases h

end InviteStage

/-! ## Runs -/

namespace InviteDesk

variable {s t : InviteDesk} {a : InviteAction} {as bs : List InviteAction} {i j : ℕ}
  {wallet : String}

/-- The rows are as they should be, every call is where it may be, and no two calls attributed one
wallet. -/
structure Consistent (s : InviteDesk) : Prop where
  rows : s.store.Sound
  fits : ∀ i, (s.calls i).Fits s.store
  once : ∀ i j wallet, (s.calls i).Credits wallet → (s.calls j).Credits wallet → i = j

theorem consistent_start : start.Consistent where
  rows := ⟨.nil, .nil, nofun, nofun, .nil, nofun, nofun⟩
  fits _ := trivial
  once _ _ _ h := h.elim

theorem Consistent.step (h : s.Consistent) (hs : s.step a = some t) :
    t.Consistent ∧ s.store.Extends t.store := by
  cases a with
  | restart =>
    obtain rfl := Option.some.inj hs
    exact ⟨⟨h.rows, fun i => (h.fits i).cut, fun i j w hi hj => h.once i j w hi.of_cut hj.of_cut⟩,
      .refl s.store⟩
  | call i move =>
    obtain ⟨⟨d, stage⟩, hadvance, heq⟩ := Option.map_eq_some_iff.mp hs
    obtain rfl := heq
    obtain ⟨he, hd, hfits, hcredits⟩ := InviteStage.advance_spec h.rows (h.fits i) hadvance
    -- Whoever attributed the wallet before leaves nothing for this call to attribute.
    have hlast : ∀ j w, stage.Credits w → (s.calls j).Credits w → j = i := by
      intro j w hw hj
      rcases hcredits w hw with hi | hnone
      · exact h.once j i w hj hi
      · have hsome := hj.referrerOf (h.fits j)
        rw [hnone] at hsome
        cases hsome
    refine ⟨⟨hd, fun j => ?_, fun j k w hj hk => ?_⟩, he⟩
    · by_cases hji : j = i
      · subst hji
        simpa using hfits
      · simpa [hji] using (h.fits j).mono hd he
    · by_cases hji : j = i
      · by_cases hki : k = i
        · exact hji.trans hki.symm
        · subst hji
          simp only [Function.update_self, Function.update_of_ne hki] at hj hk
          exact (hlast k w hj hk).symm
      · by_cases hki : k = i
        · subst hki
          simp only [Function.update_self, Function.update_of_ne hji] at hj hk
          exact hlast j w hk hj
        · simp only [Function.update_of_ne hji, Function.update_of_ne hki] at hj hk
          exact h.once j k w hj hk

theorem Consistent.run (h : s.Consistent)
    (hr : Run (fun s a t => s.step a = some t) Always s as t) :
    t.Consistent ∧ s.store.Extends t.store := by
  refine hr.invariant (I := fun t => t.Consistent ∧ s.store.Extends t.store) ⟨h, .refl s.store⟩ ?_
  intro t a u ⟨ht, hst⟩ _ hs
  obtain ⟨hu, htu⟩ := ht.step hs
  exact ⟨hu, hst.trans htu⟩

/-- Whoever asks for a wallet's code is told the same one, no other wallet is, and from then on any
spelling of it finds the wallet. -/
theorem one_code_each (hs : Run (fun s a t => s.step a = some t) Always start as s)
    (ht : Run (fun s a t => s.step a = some t) Always s bs t) {screen : InviteScreen}
    (hi : s.calls i = .invited wallet screen) :
    (∀ j w screen', t.calls j = .invited w screen' →
      (screen'.code = screen.code ↔ folded w = folded wallet)) ∧
    ∀ typed, Spells typed screen.code →
      t.store.walletForCode (normalizeCode typed) = some (folded wallet) := by
  have hsound := (consistent_start.run hs).1
  obtain ⟨hsound', he⟩ := hsound.run ht
  have hfits : (InviteStage.invited wallet screen).Fits s.store := hi ▸ hsound.fits i
  have hcode : ⟨screen.code, folded wallet⟩ ∈ t.store.codes := he.codes hfits.1
  refine ⟨fun j w screen' hj => ?_, fun typed htyped => ?_⟩
  · have hfits' : (InviteStage.invited w screen').Fits t.store := hj ▸ hsound'.fits j
    constructor
    · intro heq
      have hrows := List.inj_on_of_nodup_map hsound'.rows.codes hfits'.1 hcode heq
      exact (CodeRow.mk.inj hrows).2
    · intro heq
      have hrows := List.inj_on_of_nodup_map hsound'.rows.wallets hfits'.1 hcode heq
      exact (CodeRow.mk.inj hrows).1
  · obtain ⟨b, hb⟩ := hsound'.rows.minted _ hcode
    have hminted : screen.code = newCode b := hb
    rw [hminted] at htyped hcode
    rw [(normalizeCode_eq_iff b).mpr htyped]
    exact hsound'.rows.walletForCode hcode

theorem one_code_each_spelled : ∃ (s : InviteDesk) (screen : InviteScreen),
    s.calls 0 = .invited "0xaa" screen ∧ screen.code = "AAAAAA" ∧
    s.store.walletForCode (normalizeCode " aaa-AAA") = some (folded "0xaa") := by
  have hexec : ∃ (s : InviteDesk) (screen : InviteScreen),
      exec step start [.call 0 (.referral " 0xAA"), .call 0 .query, .call 0 (.mint fun _ => 0),
        .call 0 (.list []), .call 0 (.show 0 true)] = some s ∧
      s.calls 0 = .invited "0xaa" screen ∧ screen.code = "AAAAAA" := by
    refine ⟨_, ⟨newCode fun _ => 0, inviteLink (newCode fun _ => 0), 0, [], 0, 0, ""⟩, rfl, ?_, ?_⟩
    · rfl
    · decide
  obtain ⟨s, screen, hs, hcall, hcode⟩ := hexec
  have hrun := Run.of_exec hs fun _ _ _ => trivial
  refine ⟨s, screen, hcall, hcode, (one_code_each hrun .nil hcall).2 " aaa-AAA" ?_⟩
  rw [hcode]
  decide

/-- A wallet is attributed by one call at most. Whatever answer tells who brought it, now or later,
names one wallet, which is another and owns the code that is kept. -/
theorem brought_once (hs : Run (fun s a t => s.step a = some t) Always start as s)
    (ht : Run (fun s a t => s.step a = some t) Always s bs t) :
    (∀ i j w r r', t.calls i = .claimed w true r → t.calls j = .claimed w true r' → i = j) ∧
    (∀ i j w r r', (s.calls i).Tells w r → (t.calls j).Tells w r' → r = r') ∧
    ∀ i w r, (s.calls i).Tells w r → toLower w ≠ r ∧ ∃ row ∈ t.store.referrals,
      row.wallet = toLower w ∧ row.referrer = r ∧ t.store.walletForCode row.code = some r := by
  have hsound := (consistent_start.run hs).1
  obtain ⟨hsound', he⟩ := hsound.run ht
  have htold {i : ℕ} {w r : String} (hw : (s.calls i).Tells w r) : t.store.referrerOf w = some r :=
    hsound'.rows.referrerOf_mono he (hw.referrerOf hsound.rows (hsound.fits i))
  refine ⟨fun i j w r r' hi hj => ?_, fun i j w r r' hi hj => ?_, fun i w r hi => ?_⟩
  · apply hsound'.once i j w
    · rw [hi]
      exact ⟨rfl, rfl⟩
    · rw [hj]
      exact ⟨rfl, rfl⟩
  · have hlater := hj.referrerOf hsound'.rows (hsound'.fits j)
    exact Option.some.inj ((htold hi).symm.trans hlater)
  · obtain ⟨row, hrow, hwallet, rfl⟩ := Invites.mem_of_referrerOf (htold hi)
    obtain ⟨hcode, hne⟩ := hsound'.rows.owned row hrow
    refine ⟨?_, row, hrow, hwallet, rfl, hsound'.rows.walletForCode hcode⟩
    rwa [hwallet] at hne

/-- A wallet asks for its code, and a friend arrives on it. -/
def friendArrives : List InviteAction :=
  [.call 0 (.referral " 0xAA"), .call 0 .query, .call 0 (.mint fun _ => 0), .call 0 (.list []),
    .call 0 (.show 0 true), .call 1 (.claimReferral "0xBb" "aaa-AAA"), .call 1 .query,
    .call 1 .query, .call 1 .query]

theorem brought_once_arrives : ∃ s, exec step start friendArrives = some s ∧
    (s.calls 1).Tells "0xbb" "0xaa" ∧ toLower "0xbb" ≠ "0xaa" := by
  have hexec : ∃ s, exec step start friendArrives = some s ∧ (s.calls 1).Tells "0xbb" "0xaa" :=
    ⟨_, rfl, by decide, by decide, by decide⟩
  obtain ⟨s, hs, htells⟩ := hexec
  have hrun := Run.of_exec hs fun _ _ _ => trivial
  exact ⟨s, hs, htells, ((brought_once hrun .nil).2.2 1 _ _ htells).1⟩

end InviteDesk

end SuperAgent.Platform
