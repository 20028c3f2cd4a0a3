import SuperAgent.Core.Run
import SuperAgent.Platform.ConcurrentOpens
import SuperAgent.Platform.LimitTiers
import SuperAgent.Platform.MarketSync

/-!
# Markets that are taken off the list

The synchroniser tells the registry which markets are allowed, a service computes
its limits from the registry's list before every opening order, and the engine
judges the order by the limits that are installed. Calls run side by side, and each
may lose its way between the two: a balance that is not read, limits that are
refused, a list that was read before it changed.
-/

namespace SuperAgent.Platform

open Fixed (D)
open Policy (Engine Limits symbolAllowed)
open Venue (OrderRequest)

/-- What asks a service to refresh its limits: an opening order, with what it would place, or a read. -/
structure Refresh where
  service : ℕ
  /-- How many lists the registry had been through when the call began. -/
  since : ℕ
  order : Option OrderRequest

/-- How far a refresh has come. -/
inductive RefreshStage
  | begun
  /-- It has the balance to go by, and is about to keep it. -/
  | weighed (balance : D)
  | kept (balance : D)
  | counted (balance loss : D)
  | computed (l : Limits)
  | refreshed

/-- Where a call is. -/
inductive ListingCall
  | uncalled
  /-- It connects a service, under the limits as they stood. -/
  | connecting (k : ℕ) (l : Limits)
  | running (r : Refresh) (stage : RefreshStage)
  | judged (r : Refresh) (order : OrderRequest) (denial : Option Policy.Denial)
  | over

/-- The registry with its synchroniser, the engine, and the services with the calls under way. -/
structure Listing where
  sync : MarketSync
  /-- The platform's limits, with the list the registry has. -/
  base : Limits
  /-- Every list the registry has had, oldest first. -/
  lists : List (List String)
  engine : Engine
  /-- The balance a service read last. -/
  balance : ℕ → Option D
  calls : ℕ → ListingCall

/-- What happens next. -/
inductive ListingAction
  | sync (markets : Except VenueError (List String))
  | connect (i k : ℕ)
  | read (i k : ℕ)
  | opens (i k : ℕ) (req : OpenRequest) (clientID : String)
  /-- The venue answers a call that asked for the balance. -/
  | answer (i : ℕ) (balance : Except VenueError D)
  | go (i : ℕ)
  /-- Anything else that happens to the engine. -/
  | other

namespace Listing

variable (account : ℕ → String) (w : Listing)

/-- A call goes on. -/
def set (i : ℕ) (c : ListingCall) : Listing := { w with calls := Function.update w.calls i c }

/-- The limits a service starts from: one person's services share what is kept of them. -/
def forKey (k : ℕ) : Limits := { w.base with group := account k }

/-- Limits that are refused are not installed. -/
def install (k : ℕ) (l : Limits) : Listing :=
  match w.engine.setLimits (account k) l with
  | .ok engine => { w with engine }
  | .error _ => w

/-- One section of a call under a lock, a change of the list, or of the engine. -/
inductive Step (w : Listing) : ListingAction → Listing → Prop
  | told {markets : Except VenueError (List String)} {l : List String} :
    (w.sync.sync markets).2 = some l →
    Step w (.sync markets) { w with
      sync := (w.sync.sync markets).1
      base := { w.base with allowedSymbols := l }
      lists := w.lists ++ [l] }
  | untold {markets : Except VenueError (List String)} : (w.sync.sync markets).2 = none →
    Step w (.sync markets) { w with sync := (w.sync.sync markets).1 }
  | connects {i k : ℕ} : w.calls i = .uncalled →
    Step w (.connect i k) (w.set i (.connecting k (w.forKey account k)))
  | connected {i k : ℕ} {l : Limits} : w.calls i = .connecting k l →
    Step w (.go i) ((w.install account k l).set i .over)
  | reads {i k : ℕ} : w.calls i = .uncalled →
    Step w (.read i k) (w.set i (.running ⟨k, w.lists.length - 1, none⟩ .begun))
  | opens {i k : ℕ} {req checked : OpenRequest} {clientID : String} : w.calls i = .uncalled →
    req.check = .ok checked →
    Step w (.opens i k req clientID)
      (w.set i (.running ⟨k, w.lists.length - 1, some (checked.order clientID)⟩ .begun))
  | known {i : ℕ} {r : Refresh} {balance : D} : w.calls i = .running r .begun →
    r.order.isSome → w.balance r.service = some balance →
    Step w (.go i) (w.set i (.running r (.weighed balance)))
  | answered {i : ℕ} {r : Refresh} {balance : D} : w.calls i = .running r .begun →
    (r.order.isSome → w.balance r.service = none) →
    Step w (.answer i (.ok balance)) (w.set i (.running r (.weighed balance)))
  -- the limits stay as they were
  | unread {i : ℕ} {r : Refresh} {e : VenueError} : w.calls i = .running r .begun →
    r.order.isSome → w.balance r.service = none →
    Step w (.answer i (.error e)) (w.set i (.running r .refreshed))
  | unanswered {i : ℕ} {r : Refresh} {e : VenueError} : w.calls i = .running r .begun →
    r.order = none → Step w (.answer i (.error e)) (w.set i .over)
  | keeps {i : ℕ} {r : Refresh} {balance : D} : w.calls i = .running r (.weighed balance) →
    Step w (.go i) ({ w with balance := Function.update w.balance r.service (some balance) }.set i
      (.running r (.kept balance)))
  | counts {i : ℕ} {r : Refresh} {balance : D} {now : Time} :
    w.calls i = .running r (.kept balance) →
    Step w (.go i) ({ w with engine := (w.engine.snapshot now (account r.service)).1 }.set i
      (.running r (.counted balance (w.engine.snapshot now (account r.service)).2.dailyLoss)))
  | computes {i : ℕ} {r : Refresh} {balance loss maxLeverage : D} {tier : LimitTier} {l : Limits} :
    w.calls i = .running r (.counted balance loss) →
    (Chosen.mk (w.forKey account r.service) tier maxLeverage).compute balance loss = some l →
    Step w (.go i) (w.set i (.running r (.computed l)))
  | panics {i : ℕ} {r : Refresh} {balance loss maxLeverage : D} {tier : LimitTier} :
    w.calls i = .running r (.counted balance loss) →
    (Chosen.mk (w.forKey account r.service) tier maxLeverage).compute balance loss = none →
    Step w (.go i) (w.set i .over)
  | installs {i : ℕ} {r : Refresh} {l : Limits} : w.calls i = .running r (.computed l) →
    Step w (.go i) ((w.install account r.service l).set i (.running r .refreshed))
  | judges {i : ℕ} {r : Refresh} {order : OrderRequest} {now : Time} :
    w.calls i = .running r .refreshed → r.order = some order →
    Step w (.go i)
      ({ w with engine :=
          (w.engine.authorize now (Policy.fromOrder (account r.service) order)).1 }.set i
        (.judged r order
          (w.engine.authorize now (Policy.fromOrder (account r.service) order)).2))
  | shows {i : ℕ} {r : Refresh} : w.calls i = .running r .refreshed → r.order = none →
    Step w (.go i) (w.set i .over)
  | other {engine : Engine} : engine.limits = w.engine.limits → Step w .other { w with engine }

/-- The limits in force carry the registry's list. -/
def UpToDate (k : ℕ) : Prop :=
  ∀ l, w.engine.limits (account k) = some l → l.allowedSymbols = w.base.allowedSymbols

/-- Limits are not older than any call on the account that is about to be judged by them. -/
def Timely (k : ℕ) (l : Limits) : Prop :=
  ∀ i r, w.calls i = .running r .refreshed → account r.service = account k →
    l.allowedSymbols ∈ w.lists.drop r.since

/-- A list is installed before any call that began after it was replaced is past its refresh, and a
refresh goes without only where the limits in force carry the registry's list. -/
def Current : ListingAction → Prop
  | .answer i (.error _) => ∀ r, w.calls i = .running r .begun → r.order.isSome →
    w.UpToDate account r.service
  | .go i =>
    (∀ k l, w.calls i = .connecting k l → (w.engine.setLimits (account k) l).isOk →
      w.Timely account k l) ∧
    ∀ r l, w.calls i = .running r (.computed l) →
      if (w.engine.setLimits (account r.service) l).isOk then w.Timely account r.service l
      else w.UpToDate account r.service
  | _ => True

/-- A refresh computes its limits from a list the registry has had since the call began, and leaves
such limits in force. -/
def Listed (r : Refresh) : RefreshStage → Prop
  | .computed l => l.allowedSymbols ∈ w.lists.drop r.since
  | .refreshed => ∀ l, w.engine.limits (account r.service) = some l →
    l.allowedSymbols ∈ w.lists.drop r.since
  | _ => True

/-- What holds of a call: it goes by lists the registry has had since it began. -/
def Fair : ListingCall → Prop
  | .running r stage => r.since < w.lists.length ∧ (∀ o, r.order = some o → o.reduce = false) ∧
    w.Listed account r stage
  | .judged r o denial => denial = none → ∃ l ∈ w.lists.drop r.since, symbolAllowed l o.symbol
  | _ => True

/-- The registry's list is the last one, the one the synchroniser read last where that told any, and
every call goes by lists the registry has had since it began. -/
structure Sound : Prop where
  last : w.lists.getLast? = some w.base.allowedSymbols
  synced : 1 < w.lists.length → w.base.allowedSymbols = w.sync.allowed
  fair : ∀ i, w.Fair account (w.calls i)

/-- A registry with its first list, and no call yet. -/
structure Fresh : Prop where
  lists : w.lists = [w.base.allowedSymbols]
  calls : ∀ i, w.calls i = .uncalled

variable {account w} {w' : Listing} {c : ListingCall} {i k n : ℕ} {l : Limits} {action : ListingAction}

theorem set_self : (w.set i c).calls i = c := Function.update_self _ _ _

theorem set_set (w : Listing) (i : ℕ) (c c' : ListingCall) : (w.set i c).set i c' = w.set i c' := by
  rw [set, set, set, Function.update_idem]

/-! ## What a call keeps -/

/-- The registry's list is one it has had since any call began. -/
theorem Sound.mem_lists (h : w.Sound account) (hn : n < w.lists.length) :
    w.base.allowedSymbols ∈ w.lists.drop n := by
  have hlast : (w.lists.drop n).getLast? = some w.base.allowedSymbols := by
    rw [List.getLast?_drop, if_neg hn.not_ge, h.last]
  exact List.mem_of_getLast? hlast

/-- Lists that are added, and an engine with the same limits, take nothing from a call. -/
theorem Fair.mono {t : List (List String)} (hlists : w'.lists = w.lists ++ t)
    (hlimits : w'.engine.limits = w.engine.limits) (h : w.Fair account c) : w'.Fair account c := by
  have hdrop : ∀ {symbols n}, symbols ∈ w.lists.drop n → symbols ∈ w'.lists.drop n := by
    intro symbols n hmem
    rw [hlists, List.drop_append]
    exact List.mem_append_left _ hmem
  cases c with
  | running r stage =>
    obtain ⟨hsince, horder, hstage⟩ := h
    refine ⟨?_, horder, ?_⟩
    · rw [hlists, List.length_append]
      exact Nat.lt_add_right _ hsince
    · cases stage with
      | computed l => exact hdrop hstage
      | refreshed =>
        intro l hl
        rw [hlimits] at hl
        exact hdrop (hstage l hl)
      | _ => trivial
  | judged r o denial =>
    intro hnone
    obtain ⟨symbols, hmem, hallowed⟩ := h hnone
    exact ⟨symbols, hdrop hmem, hallowed⟩
  | _ => trivial

theorem Sound.set (h : w.Sound account) (hc : w.Fair account c) : (w.set i c).Sound account where
  last := h.last
  synced := h.synced
  fair j := by
    by_cases hj : j = i
    · subst hj
      rw [set_self]
      exact hc
    · have hother : (w.set i c).calls j = w.calls j := Function.update_of_ne hj _ _
      rw [hother]
      exact h.fair j

/-- An engine with the same limits can take the place of the one there is. -/
theorem Sound.engine {engine : Engine} (h : w.Sound account)
    (hlimits : engine.limits = w.engine.limits) : { w with engine }.Sound account where
  last := h.last
  synced := h.synced
  fair i := Fair.mono (w := w) (List.append_nil _).symm hlimits (h.fair i)

/-- A call that is running runs on. -/
theorem Sound.running {r : Refresh} {stage stage' : RefreshStage} (h : w.Sound account)
    (hi : w.calls i = .running r stage) (hstage : w.Listed account r stage') :
    (w.set i (.running r stage')).Sound account := by
  have hfair := h.fair i
  rw [hi] at hfair
  exact h.set ⟨hfair.1, hfair.2.1, hstage⟩

/-- A call begins with the list there is. -/
theorem Sound.begins {r : Refresh} (h : w.Sound account) (hsince : r.since = w.lists.length - 1)
    (horder : ∀ o, r.order = some o → o.reduce = false) :
    (w.set i (.running r .begun)).Sound account := by
  refine h.set ⟨?_, horder, trivial⟩
  have hne : w.lists ≠ [] := by
    rintro hnil
    have hlast := h.last
    rw [hnil] at hlast
    cases hlast
  rw [hsince]
  exact Nat.sub_lt (List.length_pos_of_ne_nil hne) Nat.one_pos

/-! ## What a refresh leaves in force -/

/-- A call that is not about to install anything goes on as it likes. -/
theorem current_go {r : Refresh} {stage : RefreshStage} (hi : w.calls i = .running r stage)
    (hstage : ∀ l, stage ≠ .computed l) : w.Current account (.go i) := by
  refine ⟨fun k l h => ?_, fun r' l h => ?_⟩
  · cases hi.symm.trans h
  · cases hi.symm.trans h
    exact absurd rfl (hstage l)

/-- Limits that are refused leave everything as it was. -/
theorem install_refused (h : ¬ (w.engine.setLimits (account k) l).isOk) :
    w.install account k l = w := by
  unfold install
  split
  · next hset => exact absurd (congrArg Except.isOk hset) h
  · rfl

theorem install_installed (h : (w.engine.setLimits (account k) l).isOk) :
    w.install account k l = { w with engine :=
      { w.engine with limits := Function.update w.engine.limits (account k) (some l) } } := by
  unfold install
  split
  · next engine hset =>
    simp only [Engine.setLimits, bind_eq_ok] at hset
    obtain ⟨_, _, _, _, hset⟩ := hset
    rw [← Except.ok.inj hset]
  · next hset =>
    rw [hset] at h
    cases h

/-- Timely limits can be installed. -/
theorem Sound.install (h : w.Sound account)
    (htimely : (w.engine.setLimits (account k) l).isOk → w.Timely account k l) :
    (w.install account k l).Sound account := by
  by_cases hset : (w.engine.setLimits (account k) l).isOk
  · rw [install_installed hset]
    refine ⟨h.last, h.synced, fun i => ?_⟩
    have hfair := h.fair i
    dsimp only at hfair ⊢
    cases hcall : w.calls i with
    | running r stage =>
      rw [hcall] at hfair
      refine ⟨hfair.1, hfair.2.1, ?_⟩
      cases stage with
      | refreshed =>
        intro l' hl'
        by_cases hsame : account r.service = account k
        · dsimp only at hl'
          rw [hsame, Function.update_self] at hl'
          obtain rfl := Option.some.inj hl'
          exact htimely hset i r hcall hsame
        · dsimp only at hl'
          rw [Function.update_of_ne hsame] at hl'
          exact hfair.2.2 l' hl'
      | _ => exact hfair.2.2
    | _ =>
      rw [hcall] at hfair
      exact hfair
  · rwa [install_refused hset]

/-- An order the limits do not deny is on one of their markets. -/
theorem symbolAllowed_of_denies {req : Policy.Request} (h : l.denies req = none) :
    symbolAllowed l.allowedSymbols req.symbol := by
  unfold Limits.denies at h
  by_contra hnot
  rw [if_pos hnot] at h
  cases h

theorem Sound.step (h : w.Sound account) (hok : w.Current account action)
    (hs : w.Step account action w') : w'.Sound account := by
  cases hs with
  | told htold =>
    refine ⟨?_, fun _ => ?_, fun i => (h.fair i).mono rfl rfl⟩
    · exact List.getLast?_concat
    · exact (MarketSync.sync_told htold).symm
  | untold huntold =>
    refine ⟨h.last, fun hlists => ?_, h.fair⟩
    exact (h.synced hlists).trans (MarketSync.sync_untold huntold).symm
  | connects hi => exact h.set trivial
  | @connected i k l hi => exact (h.install (hok.1 k l hi)).set trivial
  | reads hi => exact h.begins rfl (by rintro o ⟨⟩)
  | opens hi hcheck => exact h.begins rfl (by rintro o ⟨⟩; rfl)
  | known hi _ _ => exact h.running hi trivial
  | answered hi _ => exact h.running hi trivial
  | @unread i r e hi hopen _ =>
    have hfair := h.fair i
    rw [hi] at hfair
    refine h.running hi fun l hl => ?_
    rw [hok _ hi hopen l hl]
    exact h.mem_lists hfair.1
  | unanswered hi _ => exact h.set trivial
  | @keeps i r balance hi =>
    have hkept : ({ w with balance := Function.update w.balance r.service (some balance) } :
        Listing).Sound account := ⟨h.last, h.synced, h.fair⟩
    exact hkept.running hi trivial
  | @counts i r balance now hi =>
    have hcounted : ({ w with engine := (w.engine.snapshot now (account r.service)).1 } :
        Listing).Sound account := h.engine rfl
    exact hcounted.running hi trivial
  | @computes i r balance loss maxLeverage tier l hi hcompute =>
    have hfair := h.fair i
    rw [hi] at hfair
    refine h.running hi ?_
    have hlist : l.allowedSymbols = w.base.allowedSymbols := (Chosen.compute_eq_some hcompute).1
    rw [Listed, hlist]
    exact h.mem_lists hfair.1
  | panics _ _ => exact h.set trivial
  | @installs i r l hi =>
    have hguard := hok.2 r l hi
    have hfair := h.fair i
    rw [hi] at hfair
    by_cases hset : (w.engine.setLimits (account r.service) l).isOk
    · rw [if_pos hset] at hguard
      have hinstalled := h.install fun _ => hguard
      rw [install_installed hset] at hinstalled ⊢
      refine hinstalled.running hi fun l' hl' => ?_
      dsimp only at hl' ⊢
      rw [Function.update_self] at hl'
      rw [← Option.some.inj hl']
      exact hfair.2.2
    · rw [if_neg hset] at hguard
      rw [install_refused hset]
      refine h.running hi fun l' hl' => ?_
      rw [hguard l' hl']
      exact h.mem_lists hfair.1
  | @judges i r order now hi horder =>
    have hfair := h.fair i
    rw [hi] at hfair
    have hauth := (Engine.authorize_frame (Prod.mk.eta (p := w.engine.authorize now
      (Policy.fromOrder (account r.service) order))).symm).1
    refine (h.engine hauth).set fun hgrant => ?_
    obtain ⟨l, hl, hdenies, -⟩ := Engine.authorize_granted (hfair.2.1 order horder) hgrant
    exact ⟨l.allowedSymbols, hfair.2.2 l hl, symbolAllowed_of_denies hdenies⟩
  | shows _ _ => exact h.set trivial
  | other hlimits => exact h.engine hlimits

theorem Fresh.sound (h : w.Fresh) : w.Sound account where
  last := by
    rw [h.lists]
    rfl
  synced hlists := by
    rw [h.lists] at hlists
    exact absurd hlists (lt_irrefl 1)
  fair i := by
    rw [h.calls i]
    trivial

end Listing

/-- In every run whose lists are installed in time, an opening order is granted only on a market of a
list the registry has had since the order came, and so are the limits a refresh leaves in force. -/
theorem delisted_markets_closed {account : ℕ → String} {w₀ w : Listing} {acts : List ListingAction}
    (h₀ : w₀.Fresh) (h : Run (Listing.Step account) (Listing.Current account) w₀ acts w) :
    (1 < w.lists.length → w.lists.getLast? = some w.sync.allowed) ∧
      (∀ i r o, w.calls i = .judged r o none →
        ∃ l ∈ w.lists.drop r.since, symbolAllowed l o.symbol) ∧
      ∀ i r l, w.calls i = .running r .refreshed → w.engine.limits (account r.service) = some l →
        l.allowedSymbols ∈ w.lists.drop r.since := by
  have hsound : w.Sound account :=
    h.invariant (I := (Listing.Sound account ·)) h₀.sound fun _ _ _ hw hok hs => hw.step hok hs
  refine ⟨fun hlists => ?_, fun i r o hi => ?_, fun i r l hi hl => ?_⟩
  · rw [hsound.last, hsound.synced hlists]
  · have hfair := hsound.fair i
    rw [hi] at hfair
    exact hfair rfl
  · have hfair := hsound.fair i
    rw [hi] at hfair
    exact hfair.2.2 l hl

/-! ## A list without a market -/

/-- A wallet that is connected while one market is allowed. -/
def btcListed : Listing where
  sync := .new []
  base := oneAtATime
  lists := [["BTC"]]
  engine := idle.engine
  balance _ := none
  calls _ := .uncalled

theorem btcListed_fresh : btcListed.Fresh := ⟨rfl, fun _ => rfl⟩

namespace Listing

/-- The first call is a tap that comes with the last list. -/
def tapRefresh (w : Listing) : Refresh := ⟨0, w.lists.length - 1, some (checkedTap.order "1")⟩

/-- The tap has come so far. -/
def tapAt (w : Listing) (stage : RefreshStage) : Listing := w.set 0 (.running w.tapRefresh stage)

/-- A thousand is the balance read last, and the day's loss has been looked up. -/
def measured (w : Listing) : Listing :=
  { w with
    balance := Function.update w.balance 0 (some (Fixed.fromInt 1000))
    engine := (w.engine.snapshot 0 "0xa").1 }

theorem tapAt_self (w : Listing) (stage : RefreshStage) :
    (w.tapAt stage).calls 0 = .running w.tapRefresh stage := set_self

theorem tapAt_set (w : Listing) (stage stage' : RefreshStage) :
    (w.tapAt stage).set 0 (.running w.tapRefresh stage') = w.tapAt stage' := set_set w 0 _ _

/-- The way of a tap from its check to its limits. -/
theorem run_tap {w : Listing} {l : Limits} (hcalls : w.calls 0 = .uncalled)
    (hbalance : w.balance 0 = none)
    (hcompute : (Chosen.mk (w.forKey (fun _ => "0xa") 0) safeTier 0).compute (Fixed.fromInt 1000)
      (w.engine.snapshot 0 "0xa").2.dailyLoss = some l) :
    Run (Step fun _ => "0xa") (Current fun _ => "0xa") w
      [.opens 0 0 tap "1", .answer 0 (.ok (Fixed.fromInt 1000)), .go 0, .go 0, .go 0]
      (w.measured.tapAt (.computed l)) := by
  have hopens : Step (fun _ => "0xa") w (.opens 0 0 tap "1") (w.tapAt .begun) := .opens hcalls rfl
  have hanswer : Step (fun _ => "0xa") (w.tapAt .begun) (.answer 0 (.ok (Fixed.fromInt 1000)))
      (w.tapAt (.weighed (Fixed.fromInt 1000))) := by
    rw [← tapAt_set w .begun (.weighed _)]
    exact .answered (tapAt_self w .begun) fun _ => hbalance
  have hkeeps : Step (fun _ => "0xa") (w.tapAt (.weighed (Fixed.fromInt 1000))) (.go 0)
      ({ w with balance := w.measured.balance }.tapAt (.kept (Fixed.fromInt 1000))) := by
    rw [← tapAt_set _ (.weighed (Fixed.fromInt 1000)) (.kept _)]
    exact .keeps (tapAt_self w _)
  have hcounts : Step (fun _ => "0xa")
      ({ w with balance := w.measured.balance }.tapAt (.kept (Fixed.fromInt 1000))) (.go 0)
      (w.measured.tapAt
        (.counted (Fixed.fromInt 1000) (w.engine.snapshot 0 "0xa").2.dailyLoss)) := by
    rw [← tapAt_set _ (.kept (Fixed.fromInt 1000)) (.counted _ _)]
    exact .counts (tapAt_self { w with balance := w.measured.balance } _)
  have hcomputes : Step (fun _ => "0xa")
      (w.measured.tapAt (.counted (Fixed.fromInt 1000) (w.engine.snapshot 0 "0xa").2.dailyLoss))
      (.go 0) (w.measured.tapAt (.computed l)) := by
    rw [← tapAt_set _ (.counted (Fixed.fromInt 1000) _) (.computed _)]
    have hlimits : (Chosen.mk (w.measured.forKey (fun _ => "0xa") w.tapRefresh.service)
        safeTier 0).compute (Fixed.fromInt 1000) _ = some l := hcompute
    exact .computes (tapAt_self w.measured _) hlimits
  have hopened : Run (Step fun _ => "0xa") (Current fun _ => "0xa") w [.opens 0 0 tap "1"]
      (w.tapAt .begun) := Run.nil.snoc (by trivial) hopens
  have hkept := (hopened.snoc (by trivial) hanswer).snoc
    (current_go (tapAt_self _ _) (by rintro l ⟨⟩)) hkeeps
  have hcounted := hkept.snoc (current_go (tapAt_self _ _) (by rintro l ⟨⟩)) hcounts
  exact hcounted.snoc (current_go (tapAt_self _ _) (by rintro l ⟨⟩)) hcomputes

/-- A tap installs its limits, where they are not refused. -/
theorem step_tapInstalls (w : Listing) (l : Limits) : Step (fun _ => "0xa") (w.tapAt (.computed l))
    (.go 0) ((w.install (fun _ => "0xa") 0 l).tapAt .refreshed) := by
  have hrefresh : (w.install (fun _ => "0xa") 0 l).tapRefresh = w.tapRefresh := by
    unfold install
    split <;> rfl
  have hinstall : ((w.tapAt (.computed l)).install (fun _ => "0xa") 0 l) =
      (w.install (fun _ => "0xa") 0 l).tapAt (.computed l) := by
    rw [tapAt, tapAt, hrefresh]
    unfold install
    dsimp only [set]
    split <;> rfl
  rw [← tapAt_set _ (.computed l) .refreshed, ← hinstall, hrefresh]
  exact .installs (tapAt_self w _)

/-- What a tap is judged to be by the limits in force. -/
def tapJudged (w : Listing) : Listing :=
  { w with engine :=
      (w.engine.authorize 0 (Policy.fromOrder "0xa" (checkedTap.order "1"))).1 }.set 0
    (.judged w.tapRefresh (checkedTap.order "1")
      (w.engine.authorize 0 (Policy.fromOrder "0xa" (checkedTap.order "1"))).2)

/-- What the engine says of a tap. -/
theorem tapJudged_self {w : Listing}
    (h : (w.engine.authorize 0 (Policy.fromOrder "0xa" (checkedTap.order "1"))).2 = none) :
    w.tapJudged.calls 0 = .judged w.tapRefresh (checkedTap.order "1") none := by
  rw [← h]
  exact set_self

theorem step_tapJudged (w : Listing) :
    Step (fun _ => "0xa") (w.tapAt .refreshed) (.go 0) w.tapJudged := by
  have hrefresh : w.tapJudged = ({ w with engine := w.tapJudged.engine }.tapAt .refreshed).set 0
      (.judged w.tapRefresh (checkedTap.order "1")
        (w.engine.authorize 0 (Policy.fromOrder "0xa" (checkedTap.order "1"))).2) :=
    (set_set _ _ _ _).symm
  rw [hrefresh]
  exact .judges (tapAt_self w .refreshed) rfl

end Listing

/-- A second market has been listed. -/
def twoListed : Listing :=
  { btcListed with
    sync := ⟨[], ["BTC", "ETH"]⟩
    base := { oneAtATime with allowedSymbols := ["BTC", "ETH"] }
    lists := [["BTC"], ["BTC", "ETH"]] }

/-- The venue has taken its last market off. -/
def noneListed : Listing :=
  { btcListed with
    sync := ⟨[], []⟩
    base := { oneAtATime with allowedSymbols := [] }
    lists := [["BTC"], ["BTC"], []] }

/-- The limits of a tap while a list is the registry's. -/
def limitsOf (symbols : List String) : Limits :=
  { oneAtATime with
    allowedSymbols := symbols, maxOpenPositions := 2, dailyLoss := Fixed.fromInt 200,
    cooldown := 10 * Duration.second, group := "0xa" }

/-- A tap on a market of a list that has just grown. -/
theorem delisted_markets_closed_tap : ∃ w acts,
    Run (Listing.Step fun _ => "0xa") (Listing.Current fun _ => "0xa") btcListed acts w ∧
    ∃ r o, w.calls 0 = .judged r o none ∧ ∃ l ∈ w.lists.drop r.since, symbolAllowed l o.symbol := by
  have htold : Listing.Step (fun _ => "0xa") btcListed (.sync (.ok ["btc", "eth"])) twoListed :=
    .told rfl
  have hstart : Run (Listing.Step fun _ => "0xa") (Listing.Current fun _ => "0xa") btcListed
      [.sync (.ok ["btc", "eth"])] twoListed := Run.nil.snoc trivial htold
  have htap := hstart.trans (Listing.run_tap (l := limitsOf ["BTC", "ETH"]) rfl rfl rfl)
  have hcurrent : (twoListed.measured.tapAt (.computed (limitsOf ["BTC", "ETH"]))).Current
      (fun _ => "0xa") (.go 0) := by
    refine ⟨fun k l hi => ?_, fun r l hi => ?_⟩
    · cases hi.symm.trans (Listing.tapAt_self _ _)
    · cases hi.symm.trans (Listing.tapAt_self _ _)
      rw [if_pos (by rfl)]
      intro i r hi _
      by_cases hzero : i = 0
      · subst hzero
        cases hi.symm.trans (Listing.tapAt_self _ _)
      · cases hi.symm.trans (Function.update_of_ne hzero _ _)
  have hinstalled := htap.snoc hcurrent (Listing.step_tapInstalls _ _)
  have hjudged := hinstalled.snoc
    (Listing.current_go (Listing.tapAt_self _ _) (by rintro l ⟨⟩)) (Listing.step_tapJudged _)
  have hgranted := Listing.tapJudged_self
    (w := twoListed.measured.install (fun _ => "0xa") 0 (limitsOf ["BTC", "ETH"]))
    (by decide +kernel)
  exact ⟨_, _, hjudged, _, _, hgranted,
    (delisted_markets_closed btcListed_fresh hjudged).2.1 0 _ _ hgranted⟩

/-- A tap on a market that was taken off: limits without a market are refused, and those before them
stay in force. -/
theorem emptied_list_open : ∃ w acts, btcListed.Fresh ∧
    Run (Listing.Step fun _ => "0xa") Always btcListed acts w ∧
    ∃ r o, w.calls 0 = .judged r o none ∧ ∀ l ∈ w.lists.drop r.since, ¬ symbolAllowed l o.symbol := by
  have htold : Listing.Step (fun _ => "0xa") btcListed (.sync (.ok ["btc"]))
      { btcListed with sync := ⟨[], ["BTC"]⟩, lists := [["BTC"], ["BTC"]] } := .told rfl
  have hemptied : Listing.Step (fun _ => "0xa")
      { btcListed with sync := ⟨[], ["BTC"]⟩, lists := [["BTC"], ["BTC"]] } (.sync (.ok []))
      noneListed := .told rfl
  have hstart : Run (Listing.Step fun _ => "0xa") Always btcListed
      [.sync (.ok ["btc"]), .sync (.ok [])] noneListed :=
    (Run.nil.snoc trivial htold).snoc trivial hemptied
  have htap : Run (Listing.Step fun _ => "0xa") Always noneListed _ _ :=
    (Listing.run_tap (l := limitsOf []) rfl rfl rfl).mono fun _ _ _ => trivial
  have hjudged := ((hstart.trans htap).snoc trivial (Listing.step_tapInstalls _ _)).snoc trivial
    (Listing.step_tapJudged _)
  have hgranted := Listing.tapJudged_self
    (w := noneListed.measured.install (fun _ => "0xa") 0 (limitsOf [])) (by decide +kernel)
  refine ⟨_, _, btcListed_fresh, hjudged, _, _, hgranted, fun l hl => ?_⟩
  obtain rfl : l = [] := List.mem_singleton.mp hl
  exact Bool.false_ne_true

end SuperAgent.Platform
