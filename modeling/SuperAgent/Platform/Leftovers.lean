import SuperAgent.Platform.Live

/-!
# What a position leaves behind

Nothing the service keeps under a symbol says which position it was made for.
It is the latest one's as long as each position begins in a market for which
nothing of an earlier one is left: then no exit is used on another position than
its own. A position that ends without the close path leaves its exits behind.
-/

namespace SuperAgent.Platform

open Fixed (D)
open Venue (Order Position)

variable {w w' : Live} {symbol : String} {owner : ℕ} {ordered : Bool} {after : Option Position}

/-! ## The condition and the invariant -/

/-- Nothing is left for a symbol: nothing pending, armed or recorded, no row that would be
restored, and no task that has a position of the symbol in mind. -/
structure Live.Clear (w : Live) (symbol : String) : Prop where
  timer : w.exits.timers symbol = none
  alarms : ∀ p ∈ w.alarms, p.1 ≠ symbol
  stop : w.exits.stops symbol = none
  run : w.keepsLedger → w.exits.runs symbol = none
  rows : w.keepsRows → ∀ account ∈ w.accounts, w.exits.rows account symbol = none
  tasks : ∀ k ∈ w.tasks, ∀ p ∈ k.stamps, p.1 ≠ symbol

/-- A step that begins a position of a symbol finds nothing left for it. -/
def NothingLeft (w : Live) : LiveAction → Prop
  | .moved symbol after => (w.markets symbol).begins false after → w.Clear symbol
  | .opened req _ after => ∀ checked, req.check = .ok checked →
    (w.markets checked.symbol).begins true after → w.Clear checked.symbol
  | _ => True

/-- Whatever is kept for a symbol, or under way for it, is its latest position's, and nothing
was ever used on a position it was not made for. -/
structure Live.Tidy (w : Live) : Prop where
  timers : Current (fun t => t.tag.owner) w.number w.exits.timers
  alarms : ∀ p ∈ w.alarms, p.2.tag.owner = w.number p.1
  stops : Current (fun st => st.tag.owner) w.number w.exits.stops
  runs : w.keepsLedger → Current (fun e => e.tag.owner) w.number w.exits.runs
  rows : w.keepsRows → ∀ account ∈ w.accounts,
    Current (fun h => h.tag.owner) w.number (w.exits.rows account)
  tasks : ∀ k ∈ w.tasks, Stamped w.number k.stamps
  acts : ∀ a ∈ w.acts, a.owner = a.position

/-! ## What one access keeps -/

namespace Live.Tidy

theorem notes {acts : List Act} (h : w.Tidy) (ha : ∀ a ∈ acts, a.owner = a.position) :
    (w.notes acts).Tidy := by
  refine { h with acts := fun a hmem => ?_ }
  rcases List.mem_append.mp hmem with hmem | hmem
  · exact h.acts a hmem
  · exact ha a hmem

theorem uses {kind : ActKind} {kept : Option Mark} {position : ℕ} (h : w.Tidy)
    (hkept : ∀ m, kept = some m → m.owner = position) : (w.uses kind kept position).Tidy := by
  apply h.notes
  intro a ha
  obtain ⟨m, hm, rfl⟩ := List.mem_map.mp ha
  exact hkept m (Option.mem_toList.mp hm)

theorem usesOn {kind : ActKind} {owner : Option ℕ} (h : w.Tidy)
    (howner : ∀ o, owner = some o → o = w.number symbol) : (w.usesOn kind owner symbol).Tidy := by
  apply h.notes
  intro a ha
  obtain ⟨o, ho, ha⟩ := List.mem_flatMap.mp ha
  obtain ⟨_, _, rfl⟩ := List.mem_map.mp ha
  exact howner o (Option.mem_toList.mp ho)

theorem forgets {owner : Option ℕ} {kept : Option Mark} {n : ℕ} (h : w.Tidy)
    (howner : ∀ o, owner = some o → o = n) (hkept : ∀ m, kept = some m → m.owner = n) :
    (w.forgets owner kept).Tidy := by
  apply h.notes
  intro a ha
  obtain ⟨o, ho, ha⟩ := List.mem_flatMap.mp ha
  obtain ⟨m, hm, rfl⟩ := List.mem_map.mp ha
  exact (howner o (Option.mem_toList.mp ho)).trans (hkept m (Option.mem_toList.mp hm)).symm

theorem go {k : Task} (h : w.Tidy) (hk : Stamped w.number k.stamps) : (w.go k).Tidy := by
  refine { h with tasks := fun k' hmem => ?_ }
  rcases List.mem_append.mp hmem with hmem | hmem
  · exact h.tasks k' hmem
  · rw [List.mem_singleton.mp hmem]
    exact hk

theorem stopAlarm (h : w.Tidy) : (w.stopAlarm symbol).Tidy := by
  refine { h with alarms := fun p hp => h.alarms p ?_ }
  simp only [Live.stopAlarm] at hp
  split at hp
  · exact List.mem_of_mem_erase hp
  · exact hp

theorem cancel (h : w.Tidy) : (w.cancel symbol).Tidy :=
  { h.stopAlarm with timers := h.timers.forget }

theorem schedule {closesAt : Time} (h : w.Tidy) (howner : owner = w.number symbol) :
    (w.schedule symbol closesAt owner).Tidy := by
  have ha : ((w.stopAlarm symbol).usesOn .armed (some owner) symbol).Tidy :=
    h.stopAlarm.usesOn fun o ho => Option.some.inj ho ▸ howner
  refine { ha with timers := h.timers.keep howner, alarms := fun p hp => ?_ }
  rcases List.mem_append.mp hp with hp | hp
  · exact ha.alarms p hp
  · rw [List.mem_singleton.mp hp]
    exact howner

theorem armStop {maxLoss takeProfit : D} (h : w.Tidy) (howner : owner = w.number symbol) :
    (w.armStop symbol maxLoss takeProfit owner).Tidy := by
  have ha : (w.usesOn .armed (some owner) symbol).Tidy :=
    h.usesOn fun o ho => Option.some.inj ho ▸ howner
  have hw : (w.usesOn .armed (some owner) symbol |>.go
      (.watching symbol ⟨maxLoss, takeProfit, ⟨owner, w.serial⟩⟩)).Tidy := by
    apply ha.go
    intro p hp
    rw [List.mem_singleton.mp hp]
    exact howner
  exact { hw with stops := h.stops.keep howner }

theorem disarmStop (h : w.Tidy) : (w.disarmStop symbol).Tidy :=
  { h with stops := h.stops.forget }

/-- A reading of a position goes into its own record. -/
theorem noteExcursion {unrealized : D} (h : w.Tidy) (howner : owner = w.number symbol) :
    (w.noteExcursion symbol unrealized owner).Tidy := by
  have hu : (w.uses .noted
      (if w.keepsLedger then (w.exits.runs symbol).map Excursion.tag else none) owner).Tidy := by
    apply h.uses
    intro m hm
    split at hm
    · next hledger => exact (Current.of_map (s := Mark.owner) (h.runs hledger) hm).trans howner.symm
    · cases hm
  refine { hu with runs := fun hledger => (h.runs hledger).keep ?_ }
  -- the record keeps the mark it has, and a new one is the position's
  change ((w.exits.runs symbol).getD _).tag.owner = w.number symbol
  cases hr : w.exits.runs symbol with
  | none => exact howner
  | some e => exact h.runs hledger symbol e hr

theorem takeExcursion (h : w.Tidy) :
    ({ w with exits := (w.exits.takeExcursion symbol).1 } : Live).Tidy :=
  { h with runs := fun hledger => (h.runs hledger).forget }

theorem saveHorizon {row : Horizon Mark} (h : w.Tidy) (howner : row.tag.owner = w.number symbol) :
    (w.saveHorizon symbol row).Tidy := by
  refine { h with rows := fun hrows account hmem => ?_ }
  have hold := h.rows hrows account hmem
  exact hold.replace fun hself => (hself ▸ hold).keep howner

theorem deleteHorizon (h : w.Tidy) : (w.deleteHorizon symbol).Tidy := by
  refine { h with rows := fun hrows account hmem => ?_ }
  have hold := h.rows hrows account hmem
  exact hold.replace fun hself => (hself ▸ hold).forget

/-- A change that begins no position renumbers nothing. -/
theorem settle (h : w.Tidy) (hb : (w.markets symbol).begins ordered after = false) :
    (w.settle symbol ordered after).Tidy := by
  have hn : (w.settle symbol ordered after).number = w.number := by
    ext y
    by_cases hy : y = symbol
    · subst hy
      simp [Live.number, Live.settle, Market.move, hb]
    · simp [Live.number, Live.settle, hy]
  exact ⟨hn ▸ h.timers, hn ▸ h.alarms, hn ▸ h.stops, hn ▸ h.runs, hn ▸ h.rows, hn ▸ h.tasks, h.acts⟩

/-- A position begins apart from the ones before exactly when nothing of them is left. -/
theorem begin_iff (h : w.Tidy) (hb : (w.markets symbol).begins ordered after) :
    (w.settle symbol ordered after).Tidy ↔ w.Clear symbol := by
  have hn : (w.settle symbol ordered after).number =
      Function.update w.number symbol (w.number symbol + 1) := by
    ext y
    by_cases hy : y = symbol
    · subst hy
      simp [Live.number, Live.settle, Market.move, hb]
    · simp [Live.number, Live.settle, hy]
  have hne : w.number symbol + 1 ≠ w.number symbol := Nat.succ_ne_self _
  constructor
  · rintro ⟨ht, ha, hs, hr, hrow, hk, _⟩
    rw [hn] at ht ha hs hr hrow hk
    refine ⟨(h.timers.renew_iff hne).mp ht, ?_, (h.stops.renew_iff hne).mp hs,
      fun hl => ((h.runs hl).renew_iff hne).mp (hr hl),
      fun hk y hy => ((h.rows hk y hy).renew_iff hne).mp (hrow hk y hy),
      fun k hmem => ((h.tasks k hmem).renew_iff hne).mp (hk k hmem)⟩
    rintro p hp rfl
    have hnew := ha p hp
    rw [Function.update_self, h.alarms p hp] at hnew
    exact hne hnew.symm
  · intro hc
    refine ⟨?_, ?_, ?_, ?_, ?_, ?_, h.acts⟩
    · exact hn ▸ (h.timers.renew_iff hne).mpr hc.timer
    · intro p hp
      rw [hn, Function.update_of_ne (hc.alarms p hp)]
      exact h.alarms p hp
    · exact hn ▸ (h.stops.renew_iff hne).mpr hc.stop
    · exact fun hl => hn ▸ ((h.runs hl).renew_iff hne).mpr (hc.run hl)
    · exact fun hk y hy => hn ▸ ((h.rows hk y hy).renew_iff hne).mpr (hc.rows hk y hy)
    · exact fun k hmem => hn ▸ ((h.tasks k hmem).renew_iff hne).mpr (hc.tasks k hmem)

end Live.Tidy

/-! ## What one step of a task keeps -/

/-- A tap has no position in mind; a timer's or a watcher's call has its own. -/
theorem CloseCall.stamped {gen : String → ℕ} {c : CloseCall} :
    Stamped gen (c.owner.toList.map fun owner => (c.symbol, owner)) ↔
      ∀ o, c.owner = some o → o = gen c.symbol := by
  constructor
  · intro h o ho
    exact h (c.symbol, o) (List.mem_map_of_mem (Option.mem_toList.mpr ho))
  · intro h p hp
    obtain ⟨o, ho, rfl⟩ := List.mem_map.mp hp
    exact h o (Option.mem_toList.mp ho)

namespace Live.Tidy

section Steps

variable {c : CloseCall} {maxLoss takeProfit : D} {closesAt : Option Time}

theorem scheduling {req : OpenRequest} (h : w.Tidy) (ho : owner = w.number req.symbol) :
    (w.scheduling req owner).Tidy := by
  unfold Live.scheduling
  split
  · exact (h.schedule ho).go (.cons ho .nil)
  · exact h.go (.cons ho .nil)

theorem bounding {req : OpenRequest} (h : w.Tidy) (ho : owner = w.number req.symbol) :
    (w.bounding req closesAt owner).Tidy := by
  have harm : (w.armStop req.symbol req.maxLoss req.takeProfit owner).Tidy := h.armStop ho
  unfold Live.bounding
  by_cases hb : bounded req.maxLoss req.takeProfit
  · simp only [hb, if_true]
    split
    · exact harm.go (.cons ho .nil)
    · exact harm
  · simp only [hb, Bool.false_eq_true, if_false]
    split
    · exact h.go (.cons ho .nil)
    · exact h

theorem retry (h : w.Tidy) (hc : ∀ o, c.owner = some o → o = w.number c.symbol) :
    (w.retry c).Tidy := by
  unfold Live.retry
  split
  · exact h
  · apply h.go
    exact CloseCall.stamped.mpr hc

theorem canceling (h : w.Tidy) (hc : ∀ o, c.owner = some o → o = w.number c.symbol) :
    (w.canceling c).Tidy := by
  have hf : (w.forgets c.owner ((w.exits.timers c.symbol).map Timer.tag)).Tidy :=
    h.forgets hc fun m hm => Current.of_map (s := Mark.owner) h.timers hm
  exact hf.cancel.go (CloseCall.stamped.mpr hc)

theorem disarming (h : w.Tidy) (hc : ∀ o, c.owner = some o → o = w.number c.symbol) :
    (w.disarming c).Tidy := by
  have hf : (w.forgets c.owner ((w.exits.stops c.symbol).map Stop.tag)).Tidy :=
    h.forgets hc fun m hm => Current.of_map (s := Mark.owner) h.stops hm
  exact hf.disarmStop.go (CloseCall.stamped.mpr hc)

theorem erasing {deletes : Bool} (h : w.Tidy)
    (hc : ∀ o, c.owner = some o → o = w.number c.symbol) : (w.erasing c deletes).Tidy := by
  unfold Live.erasing
  split
  · next hrows =>
    have hrow := h.rows hrows.1 w.account List.mem_cons_self
    have hf : (w.forgets c.owner ((w.exits.rows w.account c.symbol).map Horizon.tag)).Tidy :=
      h.forgets hc fun m hm => Current.of_map (s := Mark.owner) hrow hm
    exact hf.deleteHorizon.go (CloseCall.stamped.mpr hc)
  · exact h.go (CloseCall.stamped.mpr hc)

theorem finding {granted : Bool} (h : w.Tidy)
    (hc : ∀ o, c.owner = some o → o = w.number c.symbol) : (w.finding c granted).Tidy := by
  unfold Live.finding
  split
  · split
    · apply h.go
      exact .cons rfl (CloseCall.stamped.mpr hc)
    · exact h
  · exact h.retry hc

/-- A closing order begins no position. -/
theorem placing {pos : Position} {taken : Bool} {placed : Order} (h : w.Tidy)
    (hk : Stamped w.number (Task.placing c owner pos).stamps)
    (ha : (w.markets c.symbol).begins false after = false) :
    (w.placing c owner pos taken placed after).Tidy := by
  have hc := CloseCall.stamped.mp hk.tail
  have hu : (w.usesOn .closed c.owner c.symbol).Tidy := h.usesOn hc
  have hm : ((w.usesOn .closed c.owner c.symbol).settle c.symbol false after).Tidy :=
    hu.settle ha
  have hnumber : ((w.usesOn .closed c.owner c.symbol).settle c.symbol false after).number c.symbol =
      w.number c.symbol := by
    simp [Live.number, Live.settle, Live.usesOn, Live.notes, Market.move, ha]
  unfold Live.placing
  split
  · exact h.retry hc
  · split
    · exact h
    · dsimp only
      split
      · exact hm.go (.cons (hk.head.trans hnumber.symm) .nil)
      · exact hm

/-- The record taken for the journal is of the position that was closed. -/
theorem journaling (h : w.Tidy) (ho : owner = w.number symbol) :
    (w.journaling symbol owner).Tidy := by
  unfold Live.journaling
  split
  · next hledger =>
    have hu : (w.uses .journaled ((w.exits.runs symbol).map Excursion.tag) owner).Tidy := by
      apply h.uses
      intro m hm
      exact (Current.of_map (s := Mark.owner) (h.runs hledger) hm).trans ho.symm
    exact hu.takeExcursion
  · exact h

/-- A callback forgets no entry but its own position's. -/
theorem firing {t : Timer Mark} (h : w.Tidy) (ht : t.tag.owner = w.number symbol) :
    (w.firing symbol t).Tidy := by
  have hcall : Stamped w.number [(symbol, t.tag.owner)] := .cons ht .nil
  unfold Live.firing
  dsimp only
  split
  · next cur hcur =>
    split
    · have hf : (w.forgets (some t.tag.owner) (some cur.tag)).Tidy := by
        apply h.forgets
        · intro o ho
          exact (Option.some.inj ho).symm.trans ht
        · intro m hm
          exact Option.some.inj hm ▸ h.timers symbol cur hcur
      have hforgot : ({ w.forgets (some t.tag.owner) (some cur.tag) with
          exits := w.exits.cancel symbol } : Live).Tidy := { hf with timers := h.timers.forget }
      exact hforgot.go hcall
    · exact h.go hcall
  · exact h.go hcall

theorem watching {st : Stop Mark} {looks : Bool} (h : w.Tidy)
    (hst : st.tag.owner = w.number symbol) : (w.watching symbol st looks).Tidy := by
  unfold Live.watching
  split
  · split
    · exact h.go (.cons hst (.cons rfl .nil))
    · exact h.go (.cons hst .nil)
  · split
    · exact h.go (.cons hst .nil)
    · exact h

/-- A watcher disarms no stop but its own position's. -/
theorem leaving {st : Stop Mark} (h : w.Tidy) (hst : st.tag.owner = w.number symbol) :
    (w.leaving symbol st).Tidy := by
  apply disarmStop
  apply h.forgets
  · intro o ho
    exact (Option.some.inj ho).symm.trans hst
  · intro m hm
    exact Current.of_map (s := Mark.owner) h.stops hm

theorem judging {st : Stop Mark} {pos : Position} (h : w.Tidy)
    (hst : st.tag.owner = w.number symbol) (ho : owner = w.number symbol) :
    (w.judging symbol st owner pos).Tidy := by
  have hn : (w.noteExcursion symbol pos.unrealizedPnL owner).Tidy := h.noteExcursion ho
  unfold Live.judging
  dsimp only
  split
  · exact hn.go (.cons hst .nil)
  · exact hn.go (.cons hst .nil)
  · exact hn

theorem inheriting {req : AmendRequest} (h : w.Tidy) (ho : owner = w.number req.symbol) :
    (w.inheriting req owner).Tidy := by
  unfold Live.inheriting
  split
  · next st hst =>
    apply go
    · apply h.uses
      intro m hm
      split at hm
      · exact Option.some.inj hm ▸ (h.stops req.symbol st hst).trans ho.symm
      · cases hm
    · exact .cons ho .nil
  · exact h.go (.cons ho .nil)

theorem extending {req : AmendRequest} (h : w.Tidy) (ho : owner = w.number req.symbol) :
    (w.extending req maxLoss takeProfit owner).Tidy := by
  unfold Live.extending
  dsimp only
  split
  · split
    · exact h
    · apply go
      · apply h.uses
        intro m hm
        obtain ⟨t, ht, rfl⟩ := Option.map_eq_some_iff.mp hm
        exact (h.timers req.symbol t (Option.filter_eq_some_iff.mp ht).1).trans ho.symm
      · exact .cons ho .nil
  · apply go
    · apply h.uses
      intro m hm
      exact (Current.of_map (s := Mark.owner) h.timers hm).trans ho.symm
    · exact .cons ho .nil

theorem postponing {closesAt : Time} (h : w.Tidy) (ho : owner = w.number symbol) :
    (w.postponing symbol closesAt maxLoss takeProfit owner).Tidy := by
  have hs : (w.schedule symbol closesAt owner).Tidy := h.schedule ho
  exact hs.go (.cons ho .nil)

theorem rebounding (h : w.Tidy) (ho : owner = w.number symbol) :
    (w.rebounding symbol closesAt maxLoss takeProfit owner).Tidy := by
  have harm : (w.armStop symbol maxLoss takeProfit owner).Tidy := h.armStop ho
  unfold Live.rebounding
  by_cases hb : bounded maxLoss takeProfit
  · simp only [hb, if_true, or_true]
    split
    · exact harm
    · exact harm.go (.cons ho .nil)
  · simp only [hb, Bool.false_eq_true, if_false, or_false]
    split
    · exact h.disarmStop
    · apply h.disarmStop.go
      split
      · exact .cons ho .nil
      · exact .nil

theorem reporting {seen : List Seen} (h : w.Tidy)
    (hk : Stamped w.number (Task.reporting seen).stamps) : (w.reporting seen).Tidy := by
  cases seen with
  | nil => exact h
  | cons s seen =>
    apply go
    · apply h.uses
      intro m hm
      exact (Current.of_map (s := Mark.owner) h.timers hm).trans hk.head.symm
    · exact hk

theorem showing {seen : List Seen} (h : w.Tidy)
    (hk : Stamped w.number (Task.showing seen).stamps) : (w.showing seen).Tidy := by
  cases seen with
  | nil => exact h
  | cons s seen =>
    apply go
    · apply h.uses
      intro m hm
      exact (Current.of_map (s := Mark.owner) h.stops hm).trans hk.head.symm
    · exact hk

theorem sampling {seen : List Seen} (h : w.Tidy)
    (hk : Stamped w.number (Task.sampling seen).stamps) : (w.sampling seen).Tidy := by
  cases seen with
  | nil => exact h
  | cons s seen =>
    apply go
    · exact h.noteExcursion hk.head
    · exact hk.tail

theorem restoring {rows : List (String × Horizon Mark)} (h : w.Tidy)
    (hk : Stamped w.number (Task.restoring rows).stamps) : (w.restoring rows).Tidy := by
  cases rows with
  | nil => exact h
  | cons r rows =>
    unfold Live.restoring
    dsimp only
    split
    · next closesAt _ =>
      have hs : (w.schedule r.1 closesAt r.2.tag.owner).Tidy := h.schedule hk.head
      exact hs.go hk
    · exact h.go hk

theorem rearming {row : Horizon Mark} {rows : List (String × Horizon Mark)} (h : w.Tidy)
    (hk : Stamped w.number (Task.rearming symbol row rows).stamps) :
    (w.rearming symbol row rows).Tidy := by
  unfold Live.rearming
  dsimp only
  split
  · have ha : (w.armStop symbol row.maxLoss row.takeProfit row.tag.owner).Tidy :=
      h.armStop hk.head
    exact ha.go hk.tail
  · exact h.go hk.tail

/-- A new process takes over the rows and nothing else. -/
theorem restart {symbols : List String} (h : w.Tidy) : (w.restart symbols).Tidy := by
  refine ⟨nofun, nofun, nofun, fun _ => nofun, h.rows, ?_, h.acts⟩
  intro k hk
  simp only [Live.restart] at hk
  split at hk
  · next hrows =>
    rw [List.mem_singleton.mp hk]
    intro p hp
    obtain ⟨r, hr, rfl⟩ := List.mem_map.mp hp
    obtain ⟨account, hmem, hr⟩ := List.mem_flatMap.mp hr
    obtain ⟨y, _, hr⟩ := List.mem_filterMap.mp hr
    obtain ⟨row, hrow, rfl⟩ := Option.map_eq_some_iff.mp hr
    exact h.rows hrows account hmem y row hrow
  · cases hk

/-- A task's next step. -/
theorem run {a : Answer} {k : Task} (h : w.Tidy) (hk : Stamped w.number k.stamps)
    (ha : w.answers a k) : (w.run a k).Tidy := by
  cases k with
  | scheduling req owner => exact h.scheduling hk.head
  | bounding req closesAt owner => exact h.bounding hk.head
  | saving symbol row =>
    simp only [Live.run]
    split
    · exact h.saveHorizon hk.head
    · exact h
  | firing symbol t => exact h.firing hk.head
  | watching symbol st => exact h.watching hk.head
  | leaving symbol st => exact h.leaving hk.head
  | judging symbol st owner pos => exact h.judging hk.head hk.tail.head
  | canceling c => exact h.canceling (CloseCall.stamped.mp hk)
  | disarming c => exact h.disarming (CloseCall.stamped.mp hk)
  | erasing c => exact h.erasing (CloseCall.stamped.mp hk)
  | finding c => exact h.finding (CloseCall.stamped.mp hk)
  | placing c owner pos => exact h.placing hk (by simpa [Live.answers] using ha)
  | journaling symbol owner => exact h.journaling hk.head
  | inheriting req owner => exact h.inheriting hk.head
  | extending req maxLoss takeProfit owner => exact h.extending hk.head
  | postponing symbol closesAt maxLoss takeProfit owner => exact h.postponing hk.head
  | rebounding symbol closesAt maxLoss takeProfit owner => exact h.rebounding hk.head
  | deleting symbol =>
    simp only [Live.run]
    split
    · exact h.deleteHorizon
    · exact h
  | reporting seen => exact h.reporting hk
  | showing seen => exact h.showing hk
  | sampling seen => exact h.sampling hk
  | restoring rows => exact h.restoring hk
  | rearming symbol row rows => exact h.rearming hk

end Steps

end Live.Tidy

/-! ## Runs -/

/-- One possible step. -/
def Live.Step (w : Live) (a : LiveAction) (w' : Live) : Prop := w.next a = some w'

/-- A process that has just started: nothing in memory, and no row of a position that ended. -/
structure Live.Starts (w : Live) : Prop where
  timers : w.exits.timers = fun _ => none
  alarms : w.alarms = []
  stops : w.exits.stops = fun _ => none
  runs : w.exits.runs = fun _ => none
  rows : w.keepsRows → ∀ account ∈ w.accounts,
    Current (fun h => h.tag.owner) w.number (w.exits.rows account)
  tasks : w.tasks = []
  acts : w.acts = []

theorem Live.Starts.tidy (h : w.Starts) : w.Tidy where
  timers y t ht := by simp [h.timers] at ht
  alarms p hp := by simp [h.alarms] at hp
  stops y st hst := by simp [h.stops] at hst
  runs _ y e he := by simp [h.runs] at he
  rows := h.rows
  tasks k hk := by simp [h.tasks] at hk
  acts a ha := by simp [h.acts] at ha

namespace Live.Tidy

/-- A market changes, having nothing left where a position begins. -/
theorem changes (h : w.Tidy) (hok : (w.markets symbol).begins ordered after → w.Clear symbol) :
    (w.settle symbol ordered after).Tidy := by
  cases hb : (w.markets symbol).begins ordered after with
  | false => exact h.settle hb
  | true => exact (h.begin_iff hb).mpr (hok hb)

theorem opened {req : OpenRequest} {placed : Order} (h : w.Tidy)
    (hok : (w.markets req.symbol).begins true after → w.Clear req.symbol) :
    (w.opened req placed after).Tidy := by
  have hs : (w.settle req.symbol true after).Tidy := h.changes hok
  unfold Live.opened
  dsimp only
  split
  · exact hs
  · split
    · exact hs
    · exact hs.go (.cons rfl .nil)

/-- A guarded step. -/
theorem step {a : LiveAction} (h : w.Tidy) (hok : NothingLeft w a) (hs : w.Step a w') :
    w'.Tidy := by
  cases a with
  | passed now =>
    simp only [Live.Step, Live.next, Option.ite_none_right_eq_some, Option.some.injEq] at hs
    obtain ⟨_, rfl⟩ := hs
    exact { h with }
  | moved symbol after =>
    simp only [Live.Step, Live.next, Option.some.injEq] at hs
    subst hs
    exact h.changes hok
  | opened req placed after =>
    simp only [Live.Step, Live.next, Option.bind_eq_bind, Option.bind_eq_some_iff,
      toOption_eq_some, Option.ite_none_left_eq_some, Option.some.injEq] at hs
    obtain ⟨checked, hcheck, _, rfl⟩ := hs
    exact h.opened (hok checked hcheck)
  | closed symbol =>
    simp only [Live.Step, Live.next, Option.ite_none_left_eq_some, Option.some.injEq] at hs
    obtain ⟨_, rfl⟩ := hs
    exact h.go .nil
  | amended req =>
    simp only [Live.Step, Live.next, Option.bind_eq_bind, Option.bind_eq_some_iff,
      Option.some.injEq] at hs
    obtain ⟨checked, _, _, _, rfl⟩ := hs
    exact h.go (.cons rfl .nil)
  | read symbols =>
    simp only [Live.Step, Live.next, Option.some.injEq] at hs
    subst hs
    apply h.go
    intro p hp
    obtain ⟨s, hseen, rfl⟩ := List.mem_map.mp hp
    obtain ⟨y, _, hseen⟩ := List.mem_filterMap.mp hseen
    obtain ⟨_, _, rfl⟩ := Option.map_eq_some_iff.mp hseen
    rfl
  | rang symbol t =>
    simp only [Live.Step, Live.next, Option.ite_none_right_eq_some, Option.some.injEq] at hs
    obtain ⟨⟨hmem, _⟩, rfl⟩ := hs
    have hrest : ({ w with alarms := w.alarms.erase (symbol, t) } : Live).Tidy :=
      { h with alarms := fun p hp => h.alarms p (List.mem_of_mem_erase hp) }
    exact hrest.go (.cons (h.alarms _ hmem) .nil)
  | went i a =>
    simp only [Live.Step, Live.next, Option.bind_eq_bind, Option.bind_eq_some_iff,
      Option.ite_none_right_eq_some, Option.some.injEq] at hs
    obtain ⟨k, hk, ha, rfl⟩ := hs
    have hrest : ({ w with tasks := w.tasks.eraseIdx i } : Live).Tidy :=
      { h with tasks := fun k' hk' => h.tasks k' (List.mem_of_mem_eraseIdx hk') }
    exact hrest.run (h.tasks k (List.mem_of_getElem? hk)) ha
  | restarted symbols =>
    simp only [Live.Step, Live.next, Option.some.injEq] at hs
    subst hs
    exact h.restart

end Live.Tidy

/-- In every interleaving in which each position begins in a market for which nothing of an
earlier one is left, whatever is armed on, closes, is reported for, is recorded or journaled
with, or is disarmed by a position was made for that position, and every pending timer, armed
stop, recorded excursion and persisted row is of its market's latest position. -/
theorem exits_stay {w₀ : Live} {as : List LiveAction} (h₀ : w₀.Starts)
    (h : Run Live.Step NothingLeft w₀ as w) :
    (∀ a ∈ w.acts, a.owner = a.position) ∧
    Current (fun t => t.tag.owner) w.number w.exits.timers ∧
    Current (fun st => st.tag.owner) w.number w.exits.stops ∧
    (w.keepsLedger → Current (fun e => e.tag.owner) w.number w.exits.runs) ∧
    (w.keepsRows → ∀ account ∈ w.accounts,
      Current (fun row => row.tag.owner) w.number (w.exits.rows account)) := by
  have hw : w.Tidy := h.invariant h₀.tidy fun _ _ _ ht hok hs => ht.step hok hs
  exact ⟨hw.acts, hw.timers, hw.stops, hw.runs, hw.rows⟩

/-! ## One position after another -/

/-- A wallet at rest. -/
def resting : Live where
  account := "0xa"
  keepsLedger := true
  keepsRows := true
  now := 0
  markets := fun _ => ⟨none, 0, false⟩
  exits := Exits.empty
  alarms := []
  tasks := []
  serial := 0
  acts := []

theorem resting_starts : resting.Starts :=
  ⟨rfl, rfl, rfl, rfl, fun _ _ _ => nofun, rfl, rfl⟩

/-- A tap for a minute. -/
def timedTap : OpenRequest := { tap with horizon := Duration.minute }

/-- The tap is taken, and its call runs to the end: the horizon is scheduled and saved. -/
def opensTimed : List LiveAction :=
  .opened timedTap filled (some tapped) :: List.replicate 3 (.went 0 ⟨true, filled, none⟩)

/-- The minute is over, the timer calls back and its close runs to the end. -/
def closesTimed : List LiveAction :=
  [.passed 60000000000, .rang "BTC" ⟨60000000000, ⟨1, 0⟩⟩] ++
    List.replicate 7 (.went 0 ⟨true, filled, none⟩)

/-- After a first position that its timer closed. -/
def closedOnce : Live := (exec Live.next resting (opensTimed ++ closesTimed)).get (by decide)

theorem closedOnce_clear : closedOnce.Clear "BTC" where
  timer := by decide
  alarms := by decide
  stop := by decide
  run _ := by decide
  rows _ := by decide
  tasks := by decide

/-- Taking the timed tap begins a position where nothing is left. -/
theorem NothingLeft.timedTap (hc : w.Clear "BTC") :
    NothingLeft w (.opened timedTap filled (some tapped)) := by
  intro checked hcheck _
  obtain rfl : ({ checkedTap with horizon := Duration.minute } : OpenRequest) = checked :=
    Except.ok.inj hcheck
  exact hc

/-- A position opened after the first one was closed by its timer has a timer of its own. -/
theorem exits_stay_closedOnce : ∃ w as, Run Live.Step NothingLeft resting as w ∧
    w.exits.timers "BTC" = some ⟨120000000000, ⟨2, 1⟩⟩ ∧
    Current (fun t => t.tag.owner) w.number w.exits.timers := by
  have hclear : resting.Clear "BTC" :=
    ⟨rfl, nofun, rfl, fun _ => rfl, fun _ _ _ => rfl, nofun⟩
  have hfirst : Run Live.Step NothingLeft resting (opensTimed ++ closesTimed) closedOnce :=
    Run.of_exec_cons (Option.some_get _).symm (.timedTap hclear)
      (by simp [closesTimed, NothingLeft])
  obtain ⟨w, hw, htimer⟩ := Option.map_eq_some_iff.mp (show
    (exec Live.next closedOnce opensTimed).map (·.exits.timers "BTC") =
      some (some ⟨120000000000, ⟨2, 1⟩⟩) by decide)
  have hsecond : Run Live.Step NothingLeft closedOnce opensTimed w :=
    Run.of_exec_cons hw (.timedTap closedOnce_clear) (by simp [NothingLeft])
  have hrun := hfirst.trans hsecond
  exact ⟨w, _, hrun, htimer, (exits_stay resting_starts hrun).2.1⟩

/-- A minute's position is read once and liquidated, and the next one has no horizon. -/
def liquidated : List LiveAction :=
  opensTimed ++ .read ["BTC"] :: List.replicate 4 (.went 0 ⟨true, filled, none⟩) ++
    [.moved "BTC" none, .opened tap filled (some tapped)] ++
    List.replicate 2 (.went 0 ⟨true, filled, none⟩) ++ closesTimed

/-- The first one's timer closes the next one, which is journaled with how far the first ran. -/
theorem liquidated_exits_leak : ∃ w, resting.Starts ∧ Run Live.Step Always resting liquidated w ∧
    ⟨.closed, 1, 2⟩ ∈ w.acts ∧ ⟨.journaled, 1, 2⟩ ∈ w.acts := by
  obtain ⟨w, hw, hacts⟩ := Option.map_eq_some_iff.mp (show
    (exec Live.next resting liquidated).map (·.acts.drop 4) =
      some [⟨.closed, 1, 2⟩, ⟨.journaled, 1, 2⟩] by decide)
  have hmem : ∀ a ∈ w.acts.drop 4, a ∈ w.acts := fun a ha => List.mem_of_mem_drop ha
  rw [hacts] at hmem
  exact ⟨w, resting_starts, Run.of_exec hw fun _ _ _ => trivial, hmem _ (by simp), hmem _ (by simp)⟩

end SuperAgent.Platform
