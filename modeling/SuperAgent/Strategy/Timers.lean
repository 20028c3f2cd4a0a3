import SuperAgent.Core.Clock
import SuperAgent.Core.Keyed
import SuperAgent.Core.Run

/-!
# Exit timers

At most one pending callback per key, and when it fires. The runtime starts the
function of a timer that is due and was not stopped; the function first takes
the lock, forgets the entry it takes for its own, and then runs the callback,
so it may have begun and still be waiting when its timer is replaced or
cancelled.
-/

namespace SuperAgent.Strategy

/-- How far a timer of the runtime is. -/
inductive Phase
  | armed
  | stopped
  /-- Its function was started and waits for the lock. -/
  | begun
  /-- Its function has released the lock, and its callback comes next. -/
  | forgotten
  /-- Its callback was started. -/
  | started
  deriving DecidableEq

/-- A timer handed to the runtime, for a key and the time it was scheduled for. -/
structure Timer where
  key : String
  deadline : Time
  /-- The deadline, or the time of the call where that was later. -/
  due : Time
  phase : Phase := .armed
  deriving DecidableEq

/-- What is remembered of a key: when it fires, and the number of the timer. -/
structure Entry where
  deadline : Time
  stop : Nat
  deriving DecidableEq

/-- The set of timers, with the runtime's part of it. -/
structure Timers where
  clock : Time
  pending : String → Option Entry
  /-- The timers handed to the runtime, numbered in the order they were. -/
  timers : Nat → Option Timer
  count : Nat
  /-- The timers that a call has cancelled or replaced. -/
  revoked : Nat → Bool

/-- Stopping prevents a function that has not been started, and only that. -/
def Timer.stopped (t : Timer) : Timer :=
  if t.phase = .armed then { t with phase := .stopped } else t

theorem Timer.stopped_of_armed {t : Timer} (h : t.phase = .armed) :
    t.stopped = { t with phase := .stopped } := if_pos h

/-- A timer whose function has not had the lock and may still get it. -/
def Timer.Live (t : Timer) : Prop := t.phase = .armed ∨ t.phase = .begun

namespace Timers

variable (s : Timers)

/-- No timers, at a time. -/
def new (clock : Time) : Timers where
  clock := clock
  pending := fun _ => none
  timers := fun _ => none
  count := 0
  revoked := fun _ => false

/-- Stop a timer. -/
def stop (i : Nat) : Timers :=
  { s with timers := Function.update s.timers i ((s.timers i).map Timer.stopped) }

/-- Put the callback of a timer that replaced another where no later call wants it. -/
def revoke (i : Nat) : Timers := { s with revoked := Function.update s.revoked i true }

/-- A new callback for a key at a given time, replacing any pending one. -/
def schedule (key : String) (deadline : Time) : Timers :=
  let s := match s.pending key with
    | some old => (s.stop old.stop).revoke old.stop
    | none => s
  let d := max 0 (deadline.sub s.clock)
  { s with
    timers := Function.update s.timers s.count (some ⟨key, deadline, s.clock.add d, .armed⟩)
    pending := Function.update s.pending key (some ⟨deadline, s.count⟩)
    count := s.count + 1 }

/-- Forget the pending callback of a key, and want no callback of an earlier schedule of it. -/
def cancel (key : String) : Timers :=
  let s := match s.pending key with
    | some e => { s.stop e.stop with pending := Function.update s.pending key none }
    | none => s
  { s with revoked := fun i =>
      s.revoked i || (s.timers i).any fun t => t.key = key ∧ t.phase ≠ .started }

/-- When the callback of a key fires. -/
def deadline (key : String) : Option Time := (s.pending key).map Entry.deadline

/-- Cancel everything. -/
def close : Timers :=
  { s with
    timers := fun i => (s.timers i).map fun t =>
      if (s.pending t.key).any fun e => e.stop = i then t.stopped else t
    pending := fun _ => none
    revoked := fun i => s.revoked i || (s.timers i).any fun t => t.phase ≠ .started }

/-- The part of a timer's function under the lock: forget the entry of the key if it has the
timer's deadline. -/
def expire (i : Nat) (t : Timer) : Timers :=
  { s with
    pending := if (s.pending t.key).any fun cur => cur.deadline = t.deadline then
        Function.update s.pending t.key none
      else s.pending
    timers := Function.update s.timers i (some { t with phase := .forgotten }) }

/-- The runtime's timer, in its next phase. -/
def setPhase (i : Nat) (t : Timer) (phase : Phase) : Timers :=
  { s with timers := Function.update s.timers i (some { t with phase }) }

end Timers

/-- A call that holds the lock, or a move of the runtime. -/
inductive Action
  | schedule (key : String) (deadline : Time)
  | cancel (key : String)
  | close
  | tick (now : Time)
  /-- A due timer's function is started. -/
  | fire (i : Nat)
  /-- It has the lock. -/
  | expire (i : Nat)
  /-- It runs the callback. -/
  | run (i : Nat)

namespace Timers

/-- The set after an action. -/
def next (s : Timers) : Action → Option Timers
  | .schedule key deadline => some (s.schedule key deadline)
  | .cancel key => some (s.cancel key)
  | .close => some s.close
  | .tick now => if s.clock ≤ now then some { s with clock := now } else none
  | .fire i => (s.timers i).bind fun t =>
    if t.phase = .armed ∧ t.due ≤ s.clock then some (s.setPhase i t .begun) else none
  | .expire i => (s.timers i).bind fun t =>
    if t.phase = .begun then some (s.expire i t) else none
  | .run i => (s.timers i).bind fun t =>
    if t.phase = .forgotten then some (s.setPhase i t .started) else none

/-- One step. -/
abbrev Step (s : Timers) (act : Action) (s' : Timers) : Prop := s.next act = some s'

/-- No function of a timer that is replaced has begun, and none of a key that is cancelled is
between its beginning and its callback. -/
def Calm (s : Timers) : Action → Prop
  | .schedule key _ => ∀ e t, s.pending key = some e → s.timers e.stop = some t → t.phase ≠ .begun
  | .cancel key => ∀ i t, s.timers i = some t → t.key = key →
      t.phase ≠ .begun ∧ t.phase ≠ .forgotten
  | .close => ∀ i t, s.timers i = some t → t.phase ≠ .begun ∧ t.phase ≠ .forgotten
  | _ => True

/-! ## What the set knows -/

variable {s s' : Timers} {act : Action} {key : String} {i : Nat} {t : Timer} {e : Entry}

/-- The entries are those of the timers whose functions have not had the lock, and what was revoked
is stopped. -/
structure Known (s : Timers) : Prop where
  entry : ∀ key e, s.pending key = some e →
    ∃ t, s.timers e.stop = some t ∧ t.key = key ∧ t.deadline = e.deadline ∧ t.Live
  live : ∀ i t, s.timers i = some t → t.Live → s.pending t.key = some ⟨t.deadline, i⟩
  fresh : ∀ i, s.count ≤ i → s.timers i = none
  revoked : ∀ i, s.revoked i = true → ∃ t, s.timers i = some t ∧ t.phase = .stopped

theorem known_new (clock : Time) : (new clock).Known :=
  ⟨nofun, nofun, fun _ _ => rfl, nofun⟩

theorem Known.lt_count (h : s.Known) (ht : s.timers i = some t) : i < s.count := by
  by_contra hle
  rw [h.fresh i (Nat.le_of_not_lt hle)] at ht
  cases ht

/-- More may be revoked, as long as it is stopped. -/
theorem Known.revokes (h : s.Known) (revoked : Nat → Bool)
    (hstopped : ∀ i, revoked i = true → ∃ t, s.timers i = some t ∧ t.phase = .stopped) :
    Known { s with revoked } :=
  ⟨h.entry, h.live, h.fresh, hstopped⟩

/-- A timer that is not stopped may go on from a phase to one as live as it. -/
theorem Known.setPhase (h : s.Known) (ht : s.timers i = some t) {phase : Phase}
    (hlive : Timer.Live { t with phase } ↔ t.Live) (hne : t.phase ≠ .stopped) :
    (s.setPhase i t phase).Known := by
  constructor
  · intro key e he
    obtain ⟨u, hu, hkey, hdeadline, hlives⟩ := h.entry key e he
    by_cases hi : e.stop = i
    · obtain rfl : t = u := Option.some.inj (ht.symm.trans (hi ▸ hu))
      exact ⟨_, update_some_eq_some.mpr (.inl ⟨hi, rfl⟩), hkey, hdeadline, hlive.mpr hlives⟩
    · exact ⟨u, update_some_eq_some.mpr (.inr ⟨hi, hu⟩), hkey, hdeadline, hlives⟩
  · intro j u hu hlives
    rcases update_some_eq_some.mp hu with ⟨rfl, rfl⟩ | ⟨-, hu⟩
    · exact h.live j t ht (hlive.mp hlives)
    · exact h.live j u hu hlives
  · intro j hj
    have hji : j ≠ i := fun heq => absurd (h.lt_count ht) (Nat.not_lt.mpr (heq ▸ hj))
    exact (Function.update_of_ne hji _ _).trans (h.fresh j hj)
  · intro j hj
    obtain ⟨u, hu, hstopped⟩ := h.revoked j hj
    have hji : j ≠ i := by
      rintro rfl
      exact hne (Option.some.inj (ht.symm.trans hu) ▸ hstopped)
    exact ⟨u, update_some_eq_some.mpr (.inr ⟨hji, hu⟩), hstopped⟩

/-- The pending timer of a key is forgotten, and goes on to a phase that is not live. -/
theorem Known.forget (h : s.Known) (he : s.pending key = some e) (ht : s.timers e.stop = some t)
    (hlives : t.Live) {phase : Phase} (hdead : ¬ Timer.Live { t with phase }) :
    Known { s with
      pending := Function.update s.pending key none
      timers := Function.update s.timers e.stop (some { t with phase }) } := by
  obtain ⟨u, hu, hkey, hdeadline, -⟩ := h.entry key e he
  obtain rfl : t = u := Option.some.inj (ht.symm.trans hu)
  constructor
  · intro k x hx
    obtain ⟨hk, hx⟩ := update_none_eq_some.mp hx
    obtain ⟨v, hv, hvkey, hrest⟩ := h.entry k x hx
    have hne : x.stop ≠ e.stop := by
      intro heq
      obtain rfl : t = v := Option.some.inj (ht.symm.trans (heq ▸ hv))
      exact hk (hvkey.symm.trans hkey)
    exact ⟨v, update_some_eq_some.mpr (.inr ⟨hne, hv⟩), hvkey, hrest⟩
  · intro j v hv hvlives
    rcases update_some_eq_some.mp hv with ⟨-, rfl⟩ | ⟨hj, hv⟩
    · exact absurd hvlives hdead
    · have hpending := h.live j v hv hvlives
      refine update_none_eq_some.mpr ⟨?_, hpending⟩
      intro heq
      rw [heq, he] at hpending
      exact hj (congrArg Entry.stop (Option.some.inj hpending)).symm
  · intro j hj
    have hji : j ≠ e.stop := fun heq => absurd (h.lt_count ht) (Nat.not_lt.mpr (heq ▸ hj))
    exact (Function.update_of_ne hji _ _).trans (h.fresh j hj)
  · intro j hj
    obtain ⟨v, hv, hstopped⟩ := h.revoked j hj
    have hji : j ≠ e.stop := by
      rintro rfl
      obtain rfl : t = v := Option.some.inj (ht.symm.trans hv)
      rcases hlives with hlives | hlives <;> exact nomatch hstopped.symm.trans hlives
    exact ⟨v, update_some_eq_some.mpr (.inr ⟨hji, hv⟩), hstopped⟩

/-- A key without a pending timer gets a new one. -/
theorem Known.arm (h : s.Known) (hnone : s.pending key = none) (deadline due : Time) :
    Known { s with
      timers := Function.update s.timers s.count (some ⟨key, deadline, due, .armed⟩)
      pending := Function.update s.pending key (some ⟨deadline, s.count⟩)
      count := s.count + 1 } := by
  constructor
  · intro k x hx
    rcases update_some_eq_some.mp hx with ⟨rfl, rfl⟩ | ⟨-, hx⟩
    · exact ⟨_, update_some_eq_some.mpr (.inl ⟨rfl, rfl⟩), rfl, rfl, .inl rfl⟩
    · obtain ⟨v, hv, hrest⟩ := h.entry k x hx
      exact ⟨v, update_some_eq_some.mpr (.inr ⟨Nat.ne_of_lt (h.lt_count hv), hv⟩), hrest⟩
  · intro j v hv hvlives
    rcases update_some_eq_some.mp hv with ⟨rfl, rfl⟩ | ⟨-, hv⟩
    · exact update_some_eq_some.mpr (.inl ⟨rfl, rfl⟩)
    · have hpending := h.live j v hv hvlives
      refine update_some_eq_some.mpr (.inr ⟨?_, hpending⟩)
      intro heq
      rw [heq, hnone] at hpending
      cases hpending
  · intro j hj
    have hne : j ≠ s.count := fun heq => Nat.not_succ_le_self _ (heq ▸ hj)
    exact (Function.update_of_ne hne _ _).trans (h.fresh j (Nat.le_of_succ_le hj))
  · intro j hj
    obtain ⟨v, hv, hstopped⟩ := h.revoked j hj
    exact ⟨v, update_some_eq_some.mpr (.inr ⟨Nat.ne_of_lt (h.lt_count hv), hv⟩), hstopped⟩

/-- A stopped timer is not live. -/
theorem not_live_stopped : ¬ Timer.Live { t with phase := .stopped } := by
  rintro (h | h) <;> cases h

/-- The pending timer of a key is armed, unless its function has begun. -/
theorem Known.pending_armed (h : s.Known) (he : s.pending key = some e)
    (hcalm : ∀ t, s.timers e.stop = some t → t.phase ≠ .begun) :
    ∃ t, s.timers e.stop = some t ∧ t.Live ∧ t.phase = .armed := by
  obtain ⟨t, ht, -, -, hlives⟩ := h.entry key e he
  exact ⟨t, ht, hlives, hlives.resolve_right (hcalm t ht)⟩

/-- A schedule that replaces no timer that has begun is known. -/
theorem Known.schedule (h : s.Known) {deadline : Time} (hok : s.Calm (.schedule key deadline)) :
    (s.schedule key deadline).Known := by
  cases hpending : s.pending key with
  | none =>
    have harm := h.arm hpending deadline (s.clock.add (max 0 (deadline.sub s.clock)))
    simpa only [Timers.schedule, hpending] using harm
  | some old =>
    obtain ⟨t, ht, hlives, harmed⟩ :=
      h.pending_armed hpending fun t ht => hok old t hpending ht
    have hforget := h.forget hpending ht hlives not_live_stopped
    have hrevoke := hforget.revokes (Function.update s.revoked old.stop true) ?_
    · have harm := hrevoke.arm (Function.update_self ..) deadline
        (s.clock.add (max 0 (deadline.sub s.clock)))
      simpa only [Timers.schedule, hpending, stop, revoke, ht, Option.map_some,
        Timer.stopped_of_armed harmed, Function.update_idem] using harm
    · intro j hj
      by_cases hji : j = old.stop
      · exact ⟨_, update_some_eq_some.mpr (.inl ⟨hji, rfl⟩), rfl⟩
      · exact hforget.revoked j ((Function.update_of_ne hji _ _).symm.trans hj)

/-- A timer of a key without an entry is stopped or has started its callback, when none of the key
is between its beginning and its callback. -/
theorem Known.idle (h : s.Known) (hnone : s.pending t.key = none) (ht : s.timers i = some t)
    (hcalm : t.phase ≠ .begun ∧ t.phase ≠ .forgotten) (hwait : t.phase ≠ .started) :
    t.phase = .stopped := by
  cases hphase : t.phase with
  | armed =>
    have hpending := h.live i t ht (.inl hphase)
    rw [hnone] at hpending
    cases hpending
  | stopped => rfl
  | begun => exact absurd hphase hcalm.1
  | forgotten => exact absurd hphase hcalm.2
  | started => exact absurd hphase hwait

/-- What a cancel revokes was revoked before, or is a timer of the key that has not started. -/
theorem revoked_cancel_cases {revoked : Nat → Bool} {timers : Nat → Option Timer}
    (h : (revoked i || (timers i).any fun t => t.key = key ∧ t.phase ≠ .started) = true) :
    revoked i = true ∨ ∃ t, timers i = some t ∧ t.key = key ∧ t.phase ≠ .started := by
  rcases Bool.or_eq_true_iff.mp h with h | h
  · exact .inl h
  · obtain ⟨t, ht, hwait⟩ := (Option.any_eq_true _ _).mp h
    exact .inr ⟨t, ht, of_decide_eq_true hwait⟩

/-- A cancel of a key none of whose functions is under way is known. -/
theorem Known.cancel (h : s.Known) (hok : s.Calm (.cancel key)) : (s.cancel key).Known := by
  cases hpending : s.pending key with
  | none =>
    have hrevoke := h.revokes (fun i =>
      s.revoked i || (s.timers i).any fun t => t.key = key ∧ t.phase ≠ .started) ?_
    · simpa only [Timers.cancel, hpending] using hrevoke
    · intro j hj
      rcases revoked_cancel_cases hj with hj | ⟨t, ht, rfl, hwait⟩
      · exact h.revoked j hj
      · exact ⟨t, ht, h.idle hpending ht (hok j t ht rfl) hwait⟩
  | some e =>
    have hcalm : ∀ t, s.timers e.stop = some t → t.phase ≠ .begun := by
      intro t ht
      obtain ⟨u, hu, hkey, -⟩ := h.entry key e hpending
      obtain rfl : t = u := Option.some.inj (ht.symm.trans hu)
      exact (hok e.stop t ht hkey).1
    obtain ⟨t, ht, hlives, harmed⟩ := h.pending_armed hpending hcalm
    have hforget := h.forget hpending ht hlives not_live_stopped
    have hrevoke := hforget.revokes (fun i => s.revoked i ||
      (Function.update s.timers e.stop (some { t with phase := .stopped }) i).any fun t =>
        t.key = key ∧ t.phase ≠ .started) ?_
    · simpa only [Timers.cancel, hpending, stop, ht, Option.map_some,
        Timer.stopped_of_armed harmed] using hrevoke
    · intro j hj
      rcases revoked_cancel_cases hj with hj | ⟨u, hu, rfl, hwait⟩
      · exact hforget.revoked j hj
      · refine ⟨u, hu, ?_⟩
        rcases update_some_eq_some.mp hu with ⟨-, rfl⟩ | ⟨-, hu'⟩
        · rfl
        · exact hforget.idle (Function.update_self ..) hu (hok j u hu' rfl) hwait

/-- A timer that closing finds neither begun nor waiting for its callback ends up stopped, unless it
has started it. -/
theorem Known.closed_phase (h : s.Known) (ht : s.timers i = some t)
    (hcalm : t.phase ≠ .begun ∧ t.phase ≠ .forgotten) (hwait : t.phase ≠ .started) :
    (if (s.pending t.key).any fun e => e.stop = i then t.stopped else t).phase = .stopped := by
  by_cases harmed : t.phase = .armed
  · -- it is live, so the entry of its key is its own
    have hpending := h.live i t ht (.inl harmed)
    have hown : ((s.pending t.key).any fun e => e.stop = i) = true := by
      rw [hpending]
      exact decide_eq_true rfl
    rw [if_pos hown, Timer.stopped_of_armed harmed]
  · have hstays : t.stopped = t := if_neg harmed
    rw [hstays, ite_self]
    cases hphase : t.phase with
    | armed => exact absurd hphase harmed
    | stopped => rfl
    | begun => exact absurd hphase hcalm.1
    | forgotten => exact absurd hphase hcalm.2
    | started => exact absurd hphase hwait

/-- A timer that has started its callback stays as it is. -/
theorem stopped_of_started (h : t.phase = .started) : t.stopped = t :=
  if_neg (by rw [h]; exact nofun)

/-- Closing when no function is under way leaves no timer to come. -/
theorem Known.close (h : s.Known) (hok : s.Calm .close) : s.close.Known := by
  constructor
  · exact nofun
  · intro j u hu hlives
    obtain ⟨t, ht, rfl⟩ := Option.map_eq_some_iff.mp hu
    by_cases hwait : t.phase = .started
    · rw [stopped_of_started hwait, ite_self] at hlives
      rcases hlives with hlives | hlives <;> exact nomatch hwait.symm.trans hlives
    · have hstopped := h.closed_phase ht (hok j t ht) hwait
      rcases hlives with hlives | hlives <;> exact nomatch hstopped.symm.trans hlives
  · intro j hj
    exact Option.map_eq_none_iff.mpr (h.fresh j hj)
  · intro j hj
    have hfound : ∃ t, s.timers j = some t ∧ t.phase ≠ .started := by
      rcases Bool.or_eq_true_iff.mp hj with hj | hj
      · obtain ⟨t, ht, hstopped⟩ := h.revoked j hj
        exact ⟨t, ht, by rw [hstopped]; exact nofun⟩
      · obtain ⟨t, ht, hwait⟩ := (Option.any_eq_true _ _).mp hj
        exact ⟨t, ht, of_decide_eq_true hwait⟩
    obtain ⟨t, ht, hwait⟩ := hfound
    exact ⟨_, Option.map_eq_some_iff.mpr ⟨t, ht, rfl⟩, h.closed_phase ht (hok j t ht) hwait⟩

/-- What a move of a timer needs, and what it leaves. -/
theorem bind_phase_eq_some {p : Timer → Prop} [DecidablePred p] {f : Timer → Timers} :
    ((s.timers i).bind fun t => if p t then some (f t) else none) = some s' ↔
      ∃ t, s.timers i = some t ∧ p t ∧ f t = s' := by
  simp only [Option.bind_eq_some_iff, Option.ite_none_right_eq_some, Option.some.injEq]

/-- The function of a live timer forgets the entry of its own timer. -/
theorem Known.expire_eq (h : s.Known) (ht : s.timers i = some t) (hlives : t.Live) :
    s.expire i t = { s with
      pending := Function.update s.pending t.key none
      timers := Function.update s.timers i (some { t with phase := .forgotten }) } := by
  have hpending := h.live i t ht hlives
  have hown : ((s.pending t.key).any fun cur => cur.deadline = t.deadline) = true := by
    rw [hpending]
    exact decide_eq_true rfl
  rw [expire, if_pos hown]

/-- A calm action keeps the set known. -/
theorem Known.step (h : s.Known) (hok : s.Calm act) (hs : s.Step act s') : s'.Known := by
  cases act with
  | schedule key deadline => exact Option.some.inj hs ▸ h.schedule hok
  | cancel key => exact Option.some.inj hs ▸ h.cancel hok
  | close => exact Option.some.inj hs ▸ h.close hok
  | tick now =>
    obtain ⟨-, hs⟩ := Option.ite_none_right_eq_some.mp hs
    exact Option.some.inj hs ▸ ⟨h.entry, h.live, h.fresh, h.revoked⟩
  | fire i =>
    obtain ⟨t, ht, ⟨harmed, -⟩, rfl⟩ := bind_phase_eq_some.mp hs
    refine h.setPhase ht (iff_of_true (.inr rfl) (.inl harmed)) ?_
    rw [harmed]
    exact nofun
  | expire i =>
    obtain ⟨t, ht, hbegun, rfl⟩ := bind_phase_eq_some.mp hs
    rw [h.expire_eq ht (.inr hbegun)]
    exact h.forget (h.live i t ht (.inr hbegun)) ht (.inr hbegun) (by rintro (h | h) <;> cases h)
  | run i =>
    obtain ⟨t, ht, hforgotten, rfl⟩ := bind_phase_eq_some.mp hs
    refine h.setPhase ht (iff_of_false ?_ ?_) ?_
    · rintro (h | h) <;> cases h
    · rintro (h | h) <;> exact nomatch hforgotten.symm.trans h
    · rw [hforgotten]
      exact nofun

/-- In every run in which no schedule replaces a timer whose function has begun, and no cancel of a
key comes while a function of it is between its beginning and its callback: the callback of a timer
that was replaced or cancelled is not started, a function that has the lock removes no entry but its
own timer's, and the entry of every timer that may still fire is the set's, which reports its
deadline and can stop it. -/
theorem replaced_never_fires {clock : Time} {as : List Action}
    (h : Run Step Calm (new clock) as s) :
    (∀ i t, s.revoked i = true → s.timers i = some t → t.phase ≠ .started) ∧
    (∀ i s', s.Step (.expire i) s' →
      ∀ key e, s.pending key = some e → e.stop ≠ i → s'.pending key = some e) ∧
    (∀ i t, s.timers i = some t → t.Live →
      s.pending t.key = some ⟨t.deadline, i⟩ ∧ s.deadline t.key = some t.deadline ∧
      (t.phase = .armed → (s.cancel t.key).timers i = some { t with phase := .stopped })) := by
  have hknown : s.Known := h.invariant (known_new clock) fun _ _ _ hi hok hs => hi.step hok hs
  refine ⟨fun i t hrevoked ht => ?_, fun i s' hs key e he hne => ?_, fun i t ht hlives => ?_⟩
  · obtain ⟨u, hu, hstopped⟩ := hknown.revoked i hrevoked
    obtain rfl : t = u := Option.some.inj (ht.symm.trans hu)
    rw [hstopped]
    exact nofun
  · obtain ⟨t, ht, hbegun, rfl⟩ := bind_phase_eq_some.mp hs
    have hpending := hknown.live i t ht (.inr hbegun)
    rw [hknown.expire_eq ht (.inr hbegun)]
    refine update_none_eq_some.mpr ⟨?_, he⟩
    intro heq
    rw [heq, hpending] at he
    exact hne (congrArg Entry.stop (Option.some.inj he)).symm
  · have hpending := hknown.live i t ht hlives
    refine ⟨hpending, congrArg (Option.map Entry.deadline) hpending, fun harmed => ?_⟩
    simp only [cancel, hpending, stop, ht, Option.map_some, Timer.stopped_of_armed harmed,
      Function.update_self]

/-- A horizon that is extended before it fires: the old one is stopped, the new one known. -/
theorem replaced_never_fires_extended :
    ∃ s, Run Step Calm (new 0) [.schedule "BTC" 5, .schedule "BTC" 9, .tick 6] s ∧
      s.revoked 0 = true ∧ (∀ t, s.timers 0 = some t → t.phase ≠ .started) ∧
      s.deadline "BTC" = some 9 := by
  have hfirst : Calm (new 0) (.schedule "BTC" 5) := nofun
  have hsecond : Calm ((new 0).schedule "BTC" 5) (.schedule "BTC" 9) := by
    intro e t _ ht
    rcases update_some_eq_some.mp ht with ⟨-, rfl⟩ | ⟨-, hnone⟩
    · exact nofun
    · cases hnone
  have hrun : Run Step Calm (new 0) [.schedule "BTC" 5, .schedule "BTC" 9, .tick 6]
      { ((new 0).schedule "BTC" 5).schedule "BTC" 9 with clock := 6 } :=
    ((Run.nil.snoc hfirst rfl).snoc hsecond rfl).snoc trivial (if_pos (by decide))
  obtain ⟨hstopped, -, hknown⟩ := replaced_never_fires hrun
  obtain ⟨-, hdeadline, -⟩ := hknown 1 _ rfl (.inl rfl)
  exact ⟨_, hrun, rfl, fun t => hstopped 0 t rfl, hdeadline⟩

/-! ## A function that has begun -/

/-- A callback that a call revoked too late can still be started. -/
theorem late_starts (hrevoked : s.revoked i = true) (ht : s.timers i = some t)
    (hlate : t.phase = .begun ∨ t.phase = .forgotten) :
    ∃ as q u, Run Step Always s as q ∧ q.revoked i = true ∧ q.timers i = some u ∧
      u.phase = .started := by
  have hrun : ∀ (s : Timers) (t : Timer), s.revoked i = true → s.timers i = some t →
      t.phase = .forgotten → ∃ q u, s.Step (.run i) q ∧ q.revoked i = true ∧
        q.timers i = some u ∧ u.phase = .started := by
    intro s t hrevoked ht hforgotten
    exact ⟨_, _, bind_phase_eq_some.mpr ⟨t, ht, hforgotten, rfl⟩, hrevoked,
      Function.update_self .., rfl⟩
  rcases hlate with hbegun | hforgotten
  · have hexpire : s.Step (.expire i) (s.expire i t) :=
      bind_phase_eq_some.mpr ⟨t, ht, hbegun, rfl⟩
    obtain ⟨q, u, hs, hq⟩ := hrun (s.expire i t) _ hrevoked (Function.update_self ..) rfl
    exact ⟨_, q, u, (Run.nil.snoc trivial hexpire).snoc trivial hs, hq⟩
  · obtain ⟨q, u, hs, hq⟩ := hrun s t hrevoked ht hforgotten
    exact ⟨_, q, u, Run.nil.snoc trivial hs, hq⟩

/-- Only timers that were handed over are there. -/
def Numbered (s : Timers) : Prop := ∀ i, s.count ≤ i → s.timers i = none

theorem Numbered.stop (h : s.Numbered) (j : Nat) : (s.stop j).Numbered := by
  intro i hi
  by_cases hij : i = j
  · subst hij
    exact (Function.update_self ..).trans (congrArg (Option.map Timer.stopped) (h i hi))
  · exact (Function.update_of_ne hij _ _).trans (h i hi)

theorem Numbered.set (h : s.Numbered) (ht : s.timers i = some t) (u : Option Timer) :
    ∀ j, s.count ≤ j → Function.update s.timers i u j = none := by
  intro j hj
  have hji : j ≠ i := by
    rintro rfl
    exact nomatch ht.symm.trans (h j hj)
  exact (Function.update_of_ne hji _ _).trans (h j hj)

/-- What a schedule makes of a set, whether it stopped a timer or not. -/
theorem Numbered.schedule (h : s.Numbered) (key : String) (deadline : Time) :
    (s.schedule key deadline).Numbered := by
  have harm : ∀ (u : Timers) (v : Timer), u.Numbered → u.count = s.count →
      ∀ i, s.count + 1 ≤ i → Function.update u.timers u.count (some v) i = none := by
    intro u v hu hcount i hi
    have hne : i ≠ u.count := by omega
    exact (Function.update_of_ne hne _ _).trans (hu i (by omega))
  cases hpending : s.pending key with
  | none =>
    simp only [Timers.schedule, hpending]
    exact harm s _ h rfl
  | some old =>
    simp only [Timers.schedule, hpending]
    exact harm (s.stop old.stop) _ (h.stop old.stop) rfl

theorem Numbered.step (h : s.Numbered) (hs : s.Step act s') : s'.Numbered := by
  cases act with
  | schedule key deadline => exact Option.some.inj hs ▸ h.schedule key deadline
  | cancel key =>
    obtain rfl := Option.some.inj hs
    cases hpending : s.pending key with
    | none =>
      simp only [cancel, hpending]
      exact h
    | some e =>
      simp only [cancel, hpending]
      exact h.stop e.stop
  | close =>
    obtain rfl := Option.some.inj hs
    exact fun i hi => Option.map_eq_none_iff.mpr (h i hi)
  | tick now =>
    obtain ⟨-, hs⟩ := Option.ite_none_right_eq_some.mp hs
    exact Option.some.inj hs ▸ h
  | fire i =>
    obtain ⟨t, ht, -, rfl⟩ := bind_phase_eq_some.mp hs
    exact h.set ht _
  | expire i =>
    obtain ⟨t, ht, -, rfl⟩ := bind_phase_eq_some.mp hs
    exact h.set ht _
  | run i =>
    obtain ⟨t, ht, -, rfl⟩ := bind_phase_eq_some.mp hs
    exact h.set ht _

theorem late_ne (hlate : t.phase = .begun ∨ t.phase = .forgotten) : t.phase ≠ .started := by
  rcases hlate with hlate | hlate <;> rw [hlate] <;> exact nofun

/-- Stopping leaves a function that has been started alone. -/
theorem stopped_of_late (hlate : t.phase = .begun ∨ t.phase = .forgotten) : t.stopped = t := by
  refine if_neg ?_
  rcases hlate with hlate | hlate <;> rw [hlate] <;> exact nofun

theorem stop_of_late (ht : s.timers i = some t) (hlate : t.phase = .begun ∨ t.phase = .forgotten)
    (j : Nat) : (s.stop j).timers i = some t := by
  by_cases hij : i = j
  · subst hij
    refine (Function.update_self ..).trans ?_
    rw [ht, Option.map_some, stopped_of_late hlate]
  · exact (Function.update_of_ne hij _ _).trans ht

/-- The condition is exact: after a call that does not meet it, a callback that the call revoked can
still be started. -/
theorem late_call_fires {clock : Time} {as : List Action} (h : Run Step Always (new clock) as s)
    (hs : s.Step act s') (hlate : ¬ s.Calm act) :
    ∃ bs q i t, Run Step Always s' bs q ∧ q.revoked i = true ∧ q.timers i = some t ∧
      t.phase = .started := by
  have hnumbered : s.Numbered := h.invariant (fun _ _ => rfl) fun _ _ _ hi _ hs => hi.step hs
  suffices hfound : ∃ i t, s'.revoked i = true ∧ s'.timers i = some t ∧
      (t.phase = .begun ∨ t.phase = .forgotten) by
    obtain ⟨i, t, hrevoked, ht, hphase⟩ := hfound
    obtain ⟨bs, q, u, hq⟩ := late_starts hrevoked ht hphase
    exact ⟨bs, q, i, u, hq⟩
  cases act with
  | schedule key deadline =>
    obtain rfl := Option.some.inj hs
    simp only [Calm, not_forall, not_not] at hlate
    obtain ⟨e, t, hpending, ht, hbegun⟩ := hlate
    refine ⟨e.stop, t, ?_, ?_, .inl hbegun⟩
    · simp only [schedule, hpending]
      exact Function.update_self ..
    · have hne : e.stop ≠ s.count := by
        intro heq
        exact nomatch ht.symm.trans (hnumbered e.stop (Nat.le_of_eq heq.symm))
      simp only [schedule, hpending]
      exact (Function.update_of_ne hne _ _).trans (stop_of_late ht (.inl hbegun) e.stop)
  | cancel key =>
    obtain rfl := Option.some.inj hs
    simp only [Calm, not_forall, not_and_or, not_not] at hlate
    obtain ⟨i, t, ht, hkey, hphase⟩ := hlate
    have hstays : (s.cancel key).timers i = some t := by
      cases hpending : s.pending key with
      | none =>
        simp only [cancel, hpending]
        exact ht
      | some e =>
        simp only [cancel, hpending]
        exact stop_of_late ht hphase e.stop
    have hrevoked : (s.cancel key).revoked i = true := Bool.or_eq_true_iff.mpr
      (.inr ((Option.any_eq_true _ _).mpr ⟨t, hstays, decide_eq_true ⟨hkey, late_ne hphase⟩⟩))
    exact ⟨i, t, hrevoked, hstays, hphase⟩
  | close =>
    obtain rfl := Option.some.inj hs
    simp only [Calm, not_forall, not_and_or, not_not] at hlate
    obtain ⟨i, t, ht, hphase⟩ := hlate
    have hstays : s.close.timers i = some t := by
      refine Option.map_eq_some_iff.mpr ⟨t, ht, ?_⟩
      rw [stopped_of_late hphase, ite_self]
    have hrevoked : s.close.revoked i = true := Bool.or_eq_true_iff.mpr
      (.inr ((Option.any_eq_true _ _).mpr ⟨t, ht, decide_eq_true (late_ne hphase)⟩))
    exact ⟨i, t, hrevoked, hstays, hphase⟩
  | tick now => exact absurd trivial hlate
  | fire i => exact absurd trivial hlate
  | expire i => exact absurd trivial hlate
  | run i => exact absurd trivial hlate

end Timers

/-! ## Two ways to be late -/

/-- A position's horizon fires, and the position is closed before the function has the lock. -/
def cancelledLate : List Action :=
  [.schedule "BTC" 5, .tick 5, .fire 0, .cancel "BTC", .expire 0, .run 0]

/-- A horizon fires, and is scheduled for the same time again before the function has the lock. -/
def replacedLate : List Action :=
  [.schedule "BTC" 5, .tick 5, .fire 0, .schedule "BTC" 5, .expire 0]

/-- The set after the late cancel. -/
def afterCancel : Timers := (exec Timers.next (Timers.new 0) cancelledLate).get (by decide)

/-- The set after the late schedule. -/
def afterSchedule : Timers := (exec Timers.next (Timers.new 0) replacedLate).get (by decide)

/-- A callback is started after its key was cancelled; and the function of a timer that was replaced
removes the entry of the timer that replaced it, which has the same deadline, so that the set does
not know the one timer that may still fire, and a cancel does not stop it. -/
theorem late_function_fires :
    (Run Timers.Step Always (Timers.new 0) cancelledLate afterCancel ∧
      afterCancel.revoked 0 = true ∧
      (afterCancel.timers 0).map Timer.phase = some .started) ∧
    Run Timers.Step Always (Timers.new 0) replacedLate afterSchedule ∧
      (afterSchedule.timers 1).map Timer.phase = some .armed ∧
      afterSchedule.deadline "BTC" = none ∧
      ((afterSchedule.cancel "BTC").timers 1).map Timer.phase = some .armed := by
  refine ⟨⟨?_, by decide, by decide⟩, ?_, by decide, by decide, by decide⟩
  · exact Run.of_exec (Option.some_get _).symm fun _ _ _ => trivial
  · exact Run.of_exec (Option.some_get _).symm fun _ _ _ => trivial

end SuperAgent.Strategy
