import SuperAgent.Perpl.Waiters
import SuperAgent.Core.Run
import Mathlib.Data.Set.Finite.Basic

/-!
# Every order gets its own answer

A call that waits is registered, or its channels are with the reader. Every
session that ends hands all waiters to the reader, which releases them; only a
session that closed itself to sign in again leaves them where they are.
-/

namespace SuperAgent.Perpl

namespace Submit

/-- Its acknowledgement is still to come. -/
def AwaitsStatus (u : Submit) : Prop :=
  (u.stage = .writing ∨ u.stage = .acking) ∧ u.statusCh.Idle

/-- Its first update is still to come. -/
def AwaitsOrder (u : Submit) : Prop :=
  (u.stage = .writing ∨ u.stage = .acking ∨ u.stage = .updating) ∧ u.orderCh.Idle

/-- A call that waits for something that is still to come: only an answer, its caller's deadline or
its own timer would end it. -/
def Waits (u : Submit) : Prop :=
  u.AwaitsStatus ∨ u.AwaitsOrder ∧
    (u.stage = .updating ∨ ∃ st buf, u.statusCh.buf = st :: buf ∧ st.code = 0)

/-- A call that waits for nothing goes on: without an answer it is disconnected. -/
structure Released (u : Submit) : Prop where
  done : ¬ u.Waits
  acking : u.stage = .acking → u.statusCh.buf = [] →
    u.Moves { u with stage := .leaving (.error .disconnected) }
  updating : u.stage = .updating → u.orderCh.buf = [] →
    u.Moves { u with stage := .leaving (.error .disconnected) }

/-- What became of a call that waits for nothing it did not wait for before. -/
structure Behind (u v : Submit) : Prop where
  conn : v.conn = u.conn
  status : v.AwaitsStatus → u.AwaitsStatus ∧ v.sn = u.sn
  order : v.AwaitsOrder → u.AwaitsOrder ∧ v.rq = u.rq
  waits : v.Waits → u.Waits

variable {u v : Submit}

theorem Behind.refl (u : Submit) : u.Behind u := ⟨rfl, fun h => ⟨h, rfl⟩, fun h => ⟨h, rfl⟩, id⟩

/-- A call that is not on its way any more waits for nothing. -/
theorem Behind.of_past (hconn : v.conn = u.conn)
    (h : v.stage ≠ .writing ∧ v.stage ≠ .acking ∧ v.stage ≠ .updating) : u.Behind v := by
  obtain ⟨hw, ha, hu⟩ := h
  refine ⟨hconn, ?_, ?_, ?_⟩
  · rintro ⟨hs | hs, -⟩
    · exact absurd hs hw
    · exact absurd hs ha
  · rintro ⟨hs | hs | hs, -⟩
    · exact absurd hs hw
    · exact absurd hs ha
    · exact absurd hs hu
  · rintro (⟨hs | hs, -⟩ | ⟨⟨hs | hs | hs, -⟩, -⟩)
    · exact absurd hs hw
    · exact absurd hs ha
    · exact absurd hs hw
    · exact absurd hs ha
    · exact absurd hs hu

/-- What a call does on its own. -/
theorem Moves.behind (h : u.Moves v) : u.Behind v := by
  cases h with
  | @acked st buf hu hbuf hcode =>
    refine ⟨rfl, ?_, fun ho => ⟨⟨.inr (.inl hu), ho.2⟩, rfl⟩, ?_⟩
    · rintro ⟨hs | hs, -⟩ <;> cases hs
    · rintro (⟨hs | hs, -⟩ | ⟨ho, -⟩)
      · cases hs
      · cases hs
      · exact .inr ⟨⟨.inr (.inl hu), ho.2⟩, .inr ⟨st, buf, hbuf, hcode⟩⟩
  | unconnected _ _ | rejected _ _ _ | updated _ _ | unacked _ _ _ | unheard _ _ _ | canceled _
  | timedOut _ => exact .of_past rfl ⟨nofun, nofun, nofun⟩

/-- The frame is written, and the call waits on. -/
theorem behind_acking (h : u.stage = .writing) : u.Behind { u with stage := .acking } := by
  refine ⟨rfl, fun hs => ⟨⟨.inl h, hs.2⟩, rfl⟩, fun ho => ⟨⟨.inl h, ho.2⟩, rfl⟩, ?_⟩
  rintro (hs | ⟨ho, hu | hst⟩)
  · exact .inl ⟨.inl h, hs.2⟩
  · cases hu
  · exact .inr ⟨⟨.inl h, ho.2⟩, .inr hst⟩

/-- The acknowledgement arrives, or its channel is closed. -/
theorem behind_statusCh {ch : Chan StatusResponse} (hidle : u.statusCh.Idle) (hch : ¬ ch.Idle) :
    u.Behind { u with statusCh := ch } := by
  refine ⟨rfl, fun hs => absurd hs.2 hch, fun ho => ⟨ho, rfl⟩, ?_⟩
  rintro (hs | ⟨ho, -⟩)
  · exact absurd hs.2 hch
  · rcases ho.1 with hw | ha | hu
    · exact .inl ⟨.inl hw, hidle⟩
    · exact .inl ⟨.inr ha, hidle⟩
    · exact .inr ⟨ho, .inl hu⟩

/-- An update arrives, or the channel for it is closed. -/
theorem behind_orderCh {ch : Chan OrderUpdate} (hch : ch.Idle → u.orderCh.Idle) :
    u.Behind { u with orderCh := ch } := by
  refine ⟨rfl, fun hs => ⟨hs, rfl⟩, fun ho => ⟨⟨ho.1, hch ho.2⟩, rfl⟩, ?_⟩
  rintro (hs | ⟨ho, hst⟩)
  · exact .inl hs
  · exact .inr ⟨⟨ho.1, hch ho.2⟩, hst⟩

theorem released_of_not_waits (h : ¬ u.Waits) : u.Released := by
  refine ⟨h, fun hs hbuf => .unacked hs hbuf ?_, fun hs hbuf => .unheard hs hbuf ?_⟩
  · by_contra hopen
    exact h (.inl ⟨.inr hs, hbuf, by simpa using hopen⟩)
  · by_contra hopen
    exact h (.inr ⟨⟨.inr (.inr hs), hbuf, by simpa using hopen⟩, .inl hs⟩)

theorem AwaitsStatus.registered (h : u.AwaitsStatus) : u.Registered := by
  rcases h.1 with hs | hs <;> simp [Registered, hs]

theorem AwaitsOrder.registered (h : u.AwaitsOrder) : u.Registered := by
  rcases h.1 with hs | hs | hs <;> simp [Registered, hs]

end Submit

/-- The goroutine has no connection. -/
def Reader.Down : Reader → Prop
  | .dialing => True
  | .ended _ => True
  | .failing _ _ => True
  | .stopped => True
  | _ => False

/-- The end of a session is being dealt with. -/
def Reader.Ending : Reader → Prop
  | .ended _ => True
  | .failing _ _ => True
  | _ => False

namespace Trading

variable {s s' : Trading} {a : TradingAction} {i j k : Nat} {u : Submit}

/-- Whoever waits for something can still be given it or be released. -/
structure Tracked (s : Trading) : Prop where
  status : ∀ i c, (s.calls i).conn = some c → (s.calls i).AwaitsStatus →
    s.statusWaiters (s.calls i).sn = some i ∨ s.reader.HoldsStatus i
  order : ∀ i c, (s.calls i).conn = some c → (s.calls i).AwaitsOrder →
    s.orderWaiters (s.calls i).rq = some i ∨ s.reader.HoldsOrder i
  down : s.reader.Down → s.conn = none
  /-- What registers while the waiters of a session are released had no connection. -/
  swapped : ∀ statuses orders, s.reader = .failing statuses orders →
    ∀ k i, s.statusWaiters k = some i ∨ s.orderWaiters k = some i → (s.calls i).conn = none
  released : ∀ i c, (s.calls i).conn = some c → (s.calls i).Waits →
    s.conn = some c ∨ s.reader.Ending

/-- When no call waits for more than before, it is enough to say where the channels went. -/
theorem Tracked.behind (h : s.Tracked) (hcalls : ∀ j, (s.calls j).Behind (s'.calls j))
    (hstatus : ∀ j, (s'.calls j).AwaitsStatus →
      s.statusWaiters (s.calls j).sn = some j ∨ s.reader.HoldsStatus j →
      s'.statusWaiters (s.calls j).sn = some j ∨ s'.reader.HoldsStatus j)
    (horder : ∀ j, (s'.calls j).AwaitsOrder →
      s.orderWaiters (s.calls j).rq = some j ∨ s.reader.HoldsOrder j →
      s'.orderWaiters (s.calls j).rq = some j ∨ s'.reader.HoldsOrder j)
    (hdown : s'.reader.Down → s'.conn = none)
    (hswapped : ∀ statuses orders, s'.reader = .failing statuses orders → ∀ k j,
      s'.statusWaiters k = some j ∨ s'.orderWaiters k = some j → (s.calls j).conn = none)
    (hlive : ∀ j c, (s.calls j).conn = some c → (s.calls j).Waits →
      s.conn = some c ∨ s.reader.Ending → s'.conn = some c ∨ s'.reader.Ending) : s'.Tracked := by
  refine ⟨fun j c hc hw => ?_, fun j c hc hw => ?_, hdown, fun statuses orders hr k j hk => ?_,
    fun j c hc hw => ?_⟩
  · obtain ⟨hold, hsn⟩ := (hcalls j).status hw
    rw [hsn]
    exact hstatus j hw (h.status j c ((hcalls j).conn ▸ hc) hold)
  · obtain ⟨hold, hrq⟩ := (hcalls j).order hw
    rw [hrq]
    exact horder j hw (h.order j c ((hcalls j).conn ▸ hc) hold)
  · rw [(hcalls j).conn]
    exact hswapped statuses orders hr k j hk
  · have hold : (s.calls j).Waits := (hcalls j).waits hw
    have hconn : (s.calls j).conn = some c := (hcalls j).conn ▸ hc
    exact hlive j c hconn hold (h.released j c hconn hold)

theorem behind_set (hu : (s.calls i).Behind u) (j : Nat) :
    (s.calls j).Behind ((s.set i u).calls j) := by
  by_cases hj : j = i
  · subst hj
    rwa [set_self]
  · rw [set_of_ne hj]
    exact .refl _

/-- A call goes on by itself. -/
theorem Tracked.set (h : s.Tracked) (hu : (s.calls i).Behind u) : (s.set i u).Tracked :=
  h.behind (behind_set hu) (fun _ _ => id) (fun _ _ => id) h.down h.swapped (fun _ _ _ _ => id)

/-- The reader goes on with nothing in its hands. -/
theorem Tracked.reads (h : s.Tracked) (hfree : s.reader.Free) (hcalls : s'.calls = s.calls)
    (hstatus : s'.statusWaiters = s.statusWaiters) (horder : s'.orderWaiters = s.orderWaiters)
    (hdown : s'.reader.Down → s'.conn = none)
    (hswapped : ∀ statuses orders, s'.reader ≠ .failing statuses orders)
    (hlive : ∀ j c, (s.calls j).conn = some c → (s.calls j).Waits →
      s.conn = some c ∨ s.reader.Ending → s'.conn = some c ∨ s'.reader.Ending) : s'.Tracked := by
  refine h.behind (fun j => hcalls ▸ .refl _) (fun j _ hj => ?_) (fun j _ hj => ?_) hdown
    (fun statuses orders hr => absurd hr (hswapped statuses orders)) hlive
  · rw [hstatus]
    exact .inl (hj.resolve_right (free_holds hfree j).1)
  · rw [horder]
    exact .inl (hj.resolve_right (free_holds hfree j).2)

/-- A call registers, and waits on the connection that is up. -/
theorem Tracked.registers (h : s.Tracked) (hw : s.Wired) (hi : (s.calls i).stage = .holding) :
    (s.registers i).Tracked := by
  have hsn : ∀ j, (s.calls j).Registered → (s.calls j).sn ≠ s.seq + 1 := fun j hj =>
    (Nat.lt_succ_of_le (hw.distinct.seq j hj)).ne
  have hrq : ∀ j, j ≠ i → (s.calls j).Registered → (s.calls j).rq ≠ (s.calls i).rq := by
    intro j hji hj heq
    exact hji (hw.distinct.rq j i hj.1 (hi ▸ Stage.noConfusion) heq)
  refine ⟨fun j c hc hwait => ?_, fun j c hc hwait => ?_, h.down, fun statuses orders hr k j hk => ?_,
    fun j c hc hwait => ?_⟩
  · rw [registers_statusWaiters]
    by_cases hji : j = i
    · subst hji
      rw [registers_self]
      exact .inl (Function.update_self _ _ _)
    · rw [registers_of_ne hji] at hc hwait ⊢
      rw [Function.update_of_ne (hsn j hwait.registered)]
      exact h.status j c hc hwait
  · rw [registers_orderWaiters]
    by_cases hji : j = i
    · subst hji
      rw [registers_self]
      exact .inl (Function.update_self _ _ _)
    · rw [registers_of_ne hji] at hc hwait ⊢
      rw [Function.update_of_ne (hrq j hji hwait.registered)]
      exact h.order j c hc hwait
  · by_cases hji : j = i
    · -- nothing was up to register on
      subst hji
      rw [registers_self]
      have hfailing : s.reader = .failing statuses orders := hr
      exact h.down (hfailing ▸ trivial)
    · rw [registers_of_ne hji]
      refine h.swapped statuses orders hr k j ?_
      rw [registers_statusWaiters, registers_orderWaiters] at hk
      rcases hk with hk | hk
      · by_cases hkey : k = s.seq + 1
        · rw [hkey, Function.update_self] at hk
          exact absurd (Option.some.inj hk).symm hji
        · exact .inl (by rwa [Function.update_of_ne hkey] at hk)
      · by_cases hkey : k = (s.calls i).rq
        · rw [hkey, Function.update_self] at hk
          exact absurd (Option.some.inj hk).symm hji
        · exact .inr (by rwa [Function.update_of_ne hkey] at hk)
  · by_cases hji : j = i
    · subst hji
      rw [registers_self] at hc
      exact .inl hc
    · rw [registers_of_ne hji] at hc hwait
      exact h.released j c hc hwait

/-- A call deletes its own waiters. -/
theorem Tracked.leaves {r : Except SubmitError OrderUpdate} (h : s.Tracked) (hw : s.Wired)
    (hi : (s.calls i).stage = .leaving r) : Tracked
      { s.set i { s.calls i with stage := .returned r } with
        statusWaiters := Function.update s.statusWaiters (s.calls i).sn none
        orderWaiters := Function.update s.orderWaiters (s.calls i).rq none } := by
  have hreg : (s.calls i).Registered := by simp [Submit.Registered, hi]
  have hpast : (s.calls i).Behind { s.calls i with stage := .returned r } :=
    .of_past rfl (by simp)
  have hother : ∀ j, (((s.set i { s.calls i with stage := .returned r }).calls j).AwaitsStatus ∨
      ((s.set i { s.calls i with stage := .returned r }).calls j).AwaitsOrder) →
      j ≠ i ∧ (s.calls j).Registered := by
    intro j hj
    have hji : j ≠ i := by
      rintro rfl
      simp [Submit.AwaitsStatus, Submit.AwaitsOrder] at hj
    rw [set_of_ne hji] at hj
    exact ⟨hji, hj.elim (·.registered) (·.registered)⟩
  refine h.behind (behind_set hpast) (fun j hj hheld => ?_) (fun j hj hheld => ?_) h.down
    (fun statuses orders hr k j hk => ?_) (fun _ _ _ _ => id)
  · obtain ⟨hji, hregj⟩ := hother j (.inl hj)
    refine hheld.imp_left fun hmap => ?_
    simp only
    rwa [Function.update_of_ne fun heq => hji (hw.distinct.sn j i hregj hreg heq)]
  · obtain ⟨hji, hregj⟩ := hother j (.inr hj)
    refine hheld.imp_left fun hmap => ?_
    simp only
    rwa [Function.update_of_ne fun heq => hji (hw.distinct.rq j i hregj.1 hreg.1 heq)]
  · exact h.swapped statuses orders hr k j
      (hk.imp (fun hk => (of_update_none hk).2) fun hk => (of_update_none hk).2)

/-- The reader takes the waiter of an acknowledgement. -/
theorem Tracked.takes {st : StatusResponse} (h : s.Tracked) (hr : s.reader = .reading)
    (hk : s.statusWaiters st.corrID = some i) : Tracked { s with
      statusWaiters := Function.update s.statusWaiters st.corrID none
      reader := .acknowledging st i } := by
  have hfree : s.reader.Free := hr ▸ ⟨nofun, nofun, nofun⟩
  refine h.behind (fun _ => .refl _) (fun j _ hheld => ?_) (fun j _ hheld => ?_) nofun nofun
    (fun j c _ _ hlive => ?_)
  · have hmap := hheld.resolve_right (free_holds hfree j).1
    by_cases hkey : (s.calls j).sn = st.corrID
    · rw [hkey, hk] at hmap
      exact .inr (Option.some.inj hmap)
    · exact .inl ((Function.update_of_ne hkey _ _).trans hmap)
  · exact .inl (hheld.resolve_right (free_holds hfree j).2)
  · exact hlive.imp_right fun hend => (hr ▸ hend : Reader.Ending .reading)

/-- The reader sends an acknowledgement, and nothing else is to come on its channel. -/
theorem Tracked.acknowledges {st : StatusResponse} {ch : Chan StatusResponse} (h : s.Tracked)
    (hw : s.Wired) (hr : s.reader = .acknowledging st i)
    (hch : ((s.calls i).statusCh.send st).bind Chan.close = some ch) :
    Tracked { s.set i { s.calls i with statusCh := ch } with reader := .reading } := by
  obtain ⟨-, hidle⟩ := hw.hands.status i (hr ▸ rfl)
  rw [Chan.send_close_eq_some hidle.2] at hch
  have hclosed : ¬ ch.Idle := Option.some.inj hch ▸ fun hidle => absurd hidle.2 nofun
  refine h.behind (behind_set (Submit.behind_statusCh hidle hclosed)) (fun j hj hheld => ?_)
    (fun j _ hheld => ?_) nofun nofun (fun _ _ _ _ hlive => .inl (hlive.resolve_right (hr ▸ nofun)))
  · refine .inl (hheld.resolve_right fun hold => ?_)
    have hji : i = j := (hr ▸ hold : Reader.HoldsStatus (.acknowledging st i) j)
    subst hji
    simp only [set_self] at hj
    exact hclosed hj.2
  · exact .inl (hheld.resolve_right (hr ▸ id))

/-- The reader offers an update to the call it looked up. -/
theorem Tracked.offers {o : OrderUpdate} {orders : List OrderUpdate} {ch : Chan OrderUpdate}
    (h : s.Tracked) (hw : s.Wired) (hr : s.reader = .sending o i orders)
    (hch : (s.calls i).orderCh.trySend o = some ch) :
    Tracked { s.set i { s.calls i with orderCh := ch } with reader := .delivering orders } := by
  obtain ⟨-, hopen, -⟩ := hw.hands.sending o i orders hr
  obtain ⟨d, hd, -, hbuf⟩ := Chan.trySend_eq_some (v := o) hopen
  obtain rfl : d = ch := Option.some.inj (hd.symm.trans hch)
  have hidle : d.Idle → (s.calls i).orderCh.Idle := by
    intro hidle
    rcases hbuf with hbuf | rfl
    · rw [hidle.1] at hbuf
      simp at hbuf
    · exact hidle
  exact h.behind (behind_set (Submit.behind_orderCh hidle))
    (fun j _ hheld => .inl (hheld.resolve_right (hr ▸ id)))
    (fun j _ hheld => .inl (hheld.resolve_right (hr ▸ id))) nofun nofun
    (fun _ _ _ _ hlive => .inl (hlive.resolve_right (hr ▸ nofun)))

/-- The reader takes all waiters, of a session that is over. -/
theorem Tracked.swaps (h : s.Tracked) (hr : s.reader = .ended false) : Tracked { s with
    statusWaiters := fun _ => none
    orderWaiters := fun _ => none
    reader := .failing s.statusWaiters s.orderWaiters } := by
  have hfree : s.reader.Free := hr ▸ ⟨nofun, nofun, nofun⟩
  refine h.behind (fun _ => .refl _) (fun j _ hheld => ?_) (fun j _ hheld => ?_) (fun _ => ?_) ?_
    (fun _ _ _ _ _ => .inr trivial)
  · exact .inr ⟨_, hheld.resolve_right (free_holds hfree j).1⟩
  · exact .inr ⟨_, hheld.resolve_right (free_holds hfree j).2⟩
  · exact h.down (hr ▸ trivial)
  · rintro statuses orders - k j (hk | hk) <;> cases hk

section Failing

variable {statuses orders : Nat → Option Nat}

/-- The reader releases one of the waiters it took. -/
theorem Tracked.failsStatus {ch : Chan StatusResponse} (h : s.Tracked) (hw : s.Wired)
    (hr : s.reader = .failing statuses orders) (hk : statuses k = some i)
    (hch : (s.calls i).statusCh.close = some ch) :
    Tracked { s.set i { s.calls i with statusCh := ch } with
      reader := .failing (Function.update statuses k none) orders } := by
  obtain ⟨-, hidle⟩ := hw.hands.status i (hr ▸ ⟨k, hk⟩)
  rw [Chan.close_eq_some hidle.2] at hch
  obtain rfl := Option.some.inj hch
  have hclosed : ¬ ({ (s.calls i).statusCh with closed := true } : Chan StatusResponse).Idle :=
    fun hidle => absurd hidle.2 nofun
  refine h.behind (behind_set (Submit.behind_statusCh hidle hclosed)) (fun j hj hheld => ?_)
    (fun j _ hheld => ?_) (fun _ => h.down (hr ▸ trivial)) ?_ (fun _ _ _ _ _ => .inr trivial)
  · refine hheld.imp_right fun hold => ?_
    have hji : j ≠ i := by
      rintro rfl
      simp only [set_self] at hj
      exact hclosed hj.2
    obtain ⟨l, hl⟩ : ∃ l, statuses l = some j := (hr ▸ hold : Reader.HoldsStatus (.failing _ _) j)
    have hlk : l ≠ k := by
      rintro rfl
      exact hji (Option.some.inj (hl.symm.trans hk))
    exact ⟨l, (Function.update_of_ne hlk _ _).trans hl⟩
  · rw [hr] at hheld
    exact hheld
  · exact fun _ _ _ => h.swapped statuses orders hr

theorem Tracked.failsOrder {ch : Chan OrderUpdate} (h : s.Tracked) (hw : s.Wired)
    (hr : s.reader = .failing statuses orders) (hk : orders k = some i)
    (hch : (s.calls i).orderCh.close = some ch) :
    Tracked { s.set i { s.calls i with orderCh := ch } with
      reader := .failing statuses (Function.update orders k none) } := by
  obtain ⟨-, hopen⟩ := hw.hands.order i (hr ▸ ⟨k, hk⟩)
  rw [Chan.close_eq_some hopen] at hch
  obtain rfl := Option.some.inj hch
  have hclosed : ¬ ({ (s.calls i).orderCh with closed := true } : Chan OrderUpdate).Idle :=
    fun hidle => absurd hidle.2 nofun
  refine h.behind (behind_set (Submit.behind_orderCh fun hidle => absurd hidle hclosed))
    (fun j _ hheld => ?_) (fun j hj hheld => ?_) (fun _ => h.down (hr ▸ trivial)) ?_
    (fun _ _ _ _ _ => .inr trivial)
  · rw [hr] at hheld
    exact hheld
  · refine hheld.imp_right fun hold => ?_
    have hji : j ≠ i := by
      rintro rfl
      simp only [set_self] at hj
      exact hclosed hj.2
    obtain ⟨l, hl⟩ : ∃ l, orders l = some j := (hr ▸ hold : Reader.HoldsOrder (.failing _ _) j)
    have hlk : l ≠ k := by
      rintro rfl
      exact hji (Option.some.inj (hl.symm.trans hk))
    exact ⟨l, (Function.update_of_ne hlk _ _).trans hl⟩
  · exact fun _ _ _ => h.swapped statuses orders hr

/-- All waiters of the session are released. -/
theorem Tracked.fails (h : s.Tracked) (hr : s.reader = .failing statuses orders)
    (hstatuses : ∀ k, statuses k = none) (horders : ∀ k, orders k = none) :
    Tracked { s with reader := .dialing } := by
  have hnone : ∀ j, ¬ s.reader.HoldsStatus j ∧ ¬ s.reader.HoldsOrder j := by
    intro j
    rw [hr]
    constructor
    · rintro ⟨k, hk⟩
      rw [hstatuses] at hk
      cases hk
    · rintro ⟨k, hk⟩
      rw [horders] at hk
      cases hk
  refine h.behind (fun _ => .refl _) (fun j _ hheld => .inl (hheld.resolve_right (hnone j).1))
    (fun j _ hheld => .inl (hheld.resolve_right (hnone j).2)) (fun _ => h.down (hr ▸ trivial)) nofun
    (fun j c hc hwait _ => ?_)
  -- a call that still waits would be registered, and with a connection it is not
  rcases hwait with hstatus | ⟨horder, -⟩
  · have hmap := (h.status j c hc hstatus).resolve_right (hnone j).1
    rw [h.swapped _ _ hr _ _ (.inl hmap)] at hc
    cases hc
  · have hmap := (h.order j c hc horder).resolve_right (hnone j).2
    rw [h.swapped _ _ hr _ _ (.inr hmap)] at hc
    cases hc

end Failing

/-! ## Every step -/

/-- No session gives way to the next sign-in while a call that registered on a connection waits. -/
def NoneWaits (s : Trading) : TradingAction → Prop
  | .again => ∀ i, (s.calls i).conn ≠ none → ¬ (s.calls i).Waits
  | _ => True

theorem start_tracked (wantAccount : Nat) : (start wantAccount).Tracked where
  status _ _ := nofun
  order _ _ := nofun
  down _ := rfl
  swapped _ _ := nofun
  released _ _ := nofun

theorem Tracked.step (h : s.Tracked) (hw : s.Wired) (hn : s.NoneWaits a) (hs : s.Step a s') :
    s'.Tracked := by
  cases hs with
  | @given i rq _ =>
    have hpast : (s.calls i).Behind { s.calls i with rq, stage := .holding } :=
      .of_past rfl ⟨nofun, nofun, nofun⟩
    exact h.set hpast
  | @drawn i _ =>
    have hpast : (s.calls i).Behind { s.calls i with rq := s.client.draw.2, stage := .holding } :=
      .of_past rfl ⟨nofun, nofun, nofun⟩
    exact h.behind (behind_set hpast) (fun _ _ => id) (fun _ _ => id) h.down h.swapped
      (fun _ _ _ _ => id)
  | registered hi => exact h.registers hw hi
  | written hi _ =>
    exact h.behind (behind_set (Submit.behind_acking hi)) (fun _ _ => id) (fun _ _ => id) h.down
      h.swapped (fun _ _ _ _ => id)
  | @unwritten i c left _ _ =>
    have hpast : (s.calls i).Behind { s.calls i with stage := .leaving (.error .unwritten) } :=
      .of_past rfl ⟨nofun, nofun, nofun⟩
    exact h.behind (behind_set hpast) (fun _ _ => id) (fun _ _ => id) h.down h.swapped
      (fun _ _ _ _ => id)
  | moved hu => exact h.set hu.behind
  | left hi => exact h.leaves hw hi
  | gotStatus hr hk => exact h.takes hr hk
  | acknowledged hr _ hch => exact h.acknowledges hw hr hch
  | @acknowledgePanics st i hr hch =>
    obtain ⟨-, hidle⟩ := hw.hands.status i (hr ▸ rfl)
    rw [Chan.send_close_eq_some hidle.2] at hch
    cases hch
  | offered hr hch => exact h.offers hw hr hch
  | @offerPanics o i orders hr hch =>
    obtain ⟨-, hopen, -⟩ := hw.hands.sending o i orders hr
    obtain ⟨d, hd, -⟩ := Chan.trySend_eq_some (v := o) hopen
    rw [hd] at hch
    cases hch
  | swapped hr => exact h.swaps hr
  | failedStatus hr hk hch => exact h.failsStatus hw hr hk hch
  | failedOrder hr _ hk hch => exact h.failsOrder hw hr hk hch
  | @statusPanics statuses orders k i hr hk hch =>
    obtain ⟨-, hidle⟩ := hw.hands.status i (hr ▸ ⟨k, hk⟩)
    rw [Chan.close_eq_some hidle.2] at hch
    cases hch
  | @orderPanics statuses orders k i hr _ hk hch =>
    obtain ⟨-, hopen⟩ := hw.hands.order i (hr ▸ ⟨k, hk⟩)
    rw [Chan.close_eq_some hopen] at hch
    cases hch
  | failed hr hstatuses horders => exact h.fails hr hstatuses horders
  | gotWallet _ | gotAccount _ | gotOther _ | rediscovers _ _ _ =>
    exact h.behind (fun _ => .refl _) (fun _ _ => id) (fun _ _ => id) h.down h.swapped
      (fun _ _ _ _ => id)
  | gotOrders hr | lookedUp hr _ | nobody hr _ | delivered hr | readFailed hr | badFrame hr =>
    exact h.reads (hr ▸ ⟨nofun, nofun, nofun⟩) rfl rfl rfl nofun nofun
      (fun _ _ _ _ hlive => .inl (hlive.resolve_right (hr ▸ nofun)))
  | cleared hr =>
    exact h.reads (hr ▸ ⟨nofun, nofun, nofun⟩) rfl rfl rfl (fun _ => rfl) nofun
      (fun _ _ _ _ _ => .inr trivial)
  | rejoined hr =>
    refine h.reads (hr ▸ ⟨nofun, nofun, nofun⟩) rfl rfl rfl (fun _ => h.down (hr ▸ trivial)) nofun
      (fun j c hc hwait _ => ?_)
    exact absurd hwait (hn j (hc ▸ nofun))
  | dialed hr =>
    refine h.reads (hr ▸ ⟨nofun, nofun, nofun⟩) rfl rfl rfl nofun nofun (fun j c _ _ hlive => ?_)
    -- nothing was up
    rw [h.down (hr ▸ trivial), hr] at hlive
    exact (hlive.elim nofun id : False).elim
  | undialed hr =>
    exact h.reads (hr ▸ ⟨nofun, nofun, nofun⟩) rfl rfl rfl (fun _ => h.down (hr ▸ trivial)) nofun
      (fun _ _ _ _ _ => .inr trivial)
  | stopped hr =>
    exact h.reads (hr ▸ ⟨nofun, nofun, nofun⟩) rfl rfl rfl (fun _ => h.down (hr ▸ trivial)) nofun
      (fun _ _ _ _ hlive => .inl (hlive.resolve_right (hr ▸ nofun)))

/-! ## The end of a session -/

/-- The registered calls are as many as the numbers given, at most. -/
theorem Wired.finite_registered (h : s.Wired) : {i | (s.calls i).Registered}.Finite := by
  refine Set.Finite.of_injOn (f := fun i => (s.calls i).sn) ?_ ?_ (Set.finite_le_nat s.seq)
  · exact fun i hi => h.distinct.seq i hi
  · exact fun i hi j hj heq => h.distinct.sn i j hi hj heq

section Ends

variable {statuses orders : Nat → Option Nat}

/-- The waiters the reader took are finitely many. -/
theorem Wired.finite_held (h : s.Wired) (hr : s.reader = .failing statuses orders) :
    {k | statuses k ≠ none}.Finite ∧ {k | orders k ≠ none}.Finite := by
  obtain ⟨hsn, hrq⟩ := h.hands.failing statuses orders hr
  constructor
  · refine (h.finite_registered.image fun i => (s.calls i).sn).subset fun k hk => ?_
    obtain ⟨i, hi⟩ := Option.ne_none_iff_exists'.mp hk
    exact ⟨i, (h.hands.status i (hr ▸ ⟨k, hi⟩)).1, hsn k i hi⟩
  · refine (h.finite_registered.image fun i => (s.calls i).rq).subset fun k hk => ?_
    obtain ⟨i, hi⟩ := Option.ne_none_iff_exists'.mp hk
    exact ⟨i, (h.hands.order i (hr ▸ ⟨k, hi⟩)).1, hrq k i hi⟩

/-- Once a key is deleted the other keys are left. -/
theorem keys_erased {m : Nat → Option Nat} {keys : List Nat}
    (hkeys : ∀ l, m l ≠ none → l ∈ k :: keys) (l : Nat) (hl : Function.update m k none l ≠ none) :
    l ∈ keys := by
  obtain ⟨i, hi⟩ := Option.ne_none_iff_exists'.mp hl
  obtain ⟨hlk, hi⟩ := of_update_none hi
  exact (List.mem_cons.mp (hkeys l (hi ▸ nofun))).resolve_left hlk

/-- The reader releases the waiters of a session. -/
def Fails (_ : Trading) (a : TradingAction) : Prop := a = .fail

/-- It closes the status channels one after the other. -/
theorem Wired.closes_statuses (h : s.Wired) (hr : s.reader = .failing statuses orders)
    (keys : List Nat) (hkeys : ∀ k, statuses k ≠ none → k ∈ keys) :
    ∃ as t, Run Step Fails s as t ∧ t.Wired ∧
      ∃ statuses, t.reader = .failing statuses orders ∧ ∀ k, statuses k = none := by
  induction keys generalizing s statuses with
  | nil =>
    refine ⟨[], s, .nil, h, statuses, hr, fun k => ?_⟩
    by_contra hk
    cases hkeys k hk
  | cons k keys ih =>
    rcases hk : statuses k with - | i
    · have hsame : Function.update statuses k none = statuses :=
        Function.update_eq_self_iff.mpr hk.symm
      exact ih h hr (hsame ▸ keys_erased hkeys)
    · obtain ⟨-, hidle⟩ := h.hands.status i (hr ▸ ⟨k, hk⟩)
      have hstep := Step.failedStatus hr hk (Chan.close_eq_some hidle.2)
      obtain ⟨as, t, hrun, hend⟩ := ih (h.step (a := .fail) trivial hstep) rfl
        (keys_erased hkeys)
      exact ⟨_, t, hrun.cons rfl hstep, hend⟩

/-- And then the order channels. -/
theorem Wired.closes_orders (h : s.Wired) (hr : s.reader = .failing statuses orders)
    (hstatuses : ∀ k, statuses k = none) (keys : List Nat)
    (hkeys : ∀ k, orders k ≠ none → k ∈ keys) :
    ∃ as t, Run Step Fails s as t ∧ t.reader = .dialing := by
  induction keys generalizing s orders with
  | nil =>
    have horders : ∀ k, orders k = none := fun k => by
      by_contra hk
      cases hkeys k hk
    exact ⟨_, _, Run.nil.snoc rfl (.failed hr hstatuses horders), rfl⟩
  | cons k keys ih =>
    rcases hk : orders k with - | i
    · have hsame : Function.update orders k none = orders :=
        Function.update_eq_self_iff.mpr hk.symm
      exact ih h hr (hsame ▸ keys_erased hkeys)
    · obtain ⟨-, hopen⟩ := h.hands.order i (hr ▸ ⟨k, hk⟩)
      have hstep := Step.failedOrder hr hstatuses hk (Chan.close_eq_some hopen)
      obtain ⟨as, t, hrun, hend⟩ := ih (h.step (a := .fail) trivial hstep) rfl
        (keys_erased hkeys)
      exact ⟨_, t, hrun.cons rfl hstep, hend⟩

/-- Once it took the waiters it releases them all, and dials again. -/
theorem Wired.releases (h : s.Wired) (hr : s.reader = .failing statuses orders) :
    ∃ as t, Run Step Fails s as t ∧ t.reader = .dialing := by
  obtain ⟨hstatuses, horders⟩ := h.finite_held hr
  obtain ⟨as, t, hrun, ht, statuses', hr', hnone⟩ := h.closes_statuses hr hstatuses.toFinset.toList
    fun k hk => by simpa using hk
  obtain ⟨bs, u, hrun', hend⟩ := ht.closes_orders hr' hnone horders.toFinset.toList
    fun k hk => by simpa using hk
  exact ⟨as ++ bs, u, hrun.trans hrun', hend⟩

end Ends

/-! ## Every run -/

/-- Every call has an id of its own, and no session that closed itself to sign in again leaves a call
behind that waits. -/
def Orderly (s : Trading) (a : TradingAction) : Prop := s.NewID a ∧ s.NoneWaits a

theorem orderly_tracked {w : Nat} {as : List TradingAction} (h : Run Step Orderly (start w) as s) :
    s.Wired ∧ s.Tracked := by
  refine h.invariant (I := fun s => s.Wired ∧ s.Tracked) ⟨start_wired w, start_tracked w⟩ ?_
  rintro s a s' ⟨hw, ht⟩ ⟨hid, hnone⟩ hs
  exact ⟨hw.step hid hs, ht.step hw hnone hs⟩

/-- Sent to by its own answers only, with a number of its own, and nothing sent to or closed twice. -/
theorem Wired.answered (h : s.Wired) :
    s.panicked = false ∧
      (∀ i, (∀ st ∈ (s.calls i).statusCh.buf, st.corrID = (s.calls i).sn) ∧
        (∀ o ∈ (s.calls i).orderCh.buf, o.requestID = (s.calls i).rq) ∧
        ∀ o, (s.calls i).stage = .returned (.ok o) → o.requestID = (s.calls i).rq) ∧
      ∀ i j, i ≠ j → (s.calls i).Registered → (s.calls j).Registered →
        (s.calls i).sn ≠ (s.calls j).sn ∧ (s.calls i).rq ≠ (s.calls j).rq := by
  refine ⟨h.alive, fun i => ?_, fun i j hij hi hj => ⟨fun heq => ?_, fun heq => ?_⟩⟩
  · exact ⟨(h.own i).statuses, (h.own i).orders, fun o ho => (h.own i).result o (.inr ho)⟩
  · exact hij (h.distinct.sn i j hi hj heq)
  · exact hij (h.distinct.rq i j hi.1 hj.1 heq)

/-- A call whose connection is gone is released, once the end of the session is dealt with. -/
theorem Tracked.released_of_gone {c : Nat} (h : s.Tracked) (hc : (s.calls i).conn = some c)
    (hgone : s.conn ≠ some c) (hend : ¬ s.reader.Ending) : (s.calls i).Released :=
  Submit.released_of_not_waits fun hwait => (h.released i c hc hwait).elim hgone hend

/-- Releasing waiters leaves every call with its connection. -/
theorem fails_conn {as : List TradingAction} (h : Run Step Fails s as s') (i : Nat) :
    (s'.calls i).conn = (s.calls i).conn := by
  refine h.invariant (I := fun t => (t.calls i).conn = (s.calls i).conn) rfl ?_
  intro t a u ht ha hs
  obtain rfl : a = .fail := ha
  cases hs with
  | swapped _ | statusPanics _ _ _ | orderPanics _ _ _ _ | failed _ _ _ => exact ht
  | @failedStatus _ _ _ j ch _ _ _ =>
    exact ((later_set ((t.calls j).later_statusCh ch)) i).conn.trans ht
  | @failedOrder _ _ _ j ch _ _ _ _ =>
    exact ((later_set ((t.calls j).later_orderCh ch)) i).conn.trans ht

/-- Every call gets its own answer, and is released when its connection is lost. -/
theorem every_submit_answered {w : Nat} {as : List TradingAction}
    (h : Run Step Orderly (start w) as s) :
    (s.panicked = false ∧
      (∀ i, (∀ st ∈ (s.calls i).statusCh.buf, st.corrID = (s.calls i).sn) ∧
        (∀ o ∈ (s.calls i).orderCh.buf, o.requestID = (s.calls i).rq) ∧
        ∀ o, (s.calls i).stage = .returned (.ok o) → o.requestID = (s.calls i).rq) ∧
      ∀ i j, i ≠ j → (s.calls i).Registered → (s.calls j).Registered →
        (s.calls i).sn ≠ (s.calls j).sn ∧ (s.calls i).rq ≠ (s.calls j).rq) ∧
    (∀ i c, (s.calls i).conn = some c → s.conn ≠ some c → ¬ s.reader.Ending →
      (s.calls i).Released) ∧
    ((s.reader = .ended false ∨ ∃ statuses orders, s.reader = .failing statuses orders) →
      ∃ bs t, Run Step Fails s bs t ∧ t.reader = .dialing ∧
        ∀ i, (s.calls i).conn ≠ none → (t.calls i).Released) := by
  obtain ⟨hw, ht⟩ := orderly_tracked h
  refine ⟨hw.answered, fun i c hc hgone hend => ht.released_of_gone hc hgone hend, fun hr => ?_⟩
  obtain ⟨bs, t, hrun, hdial⟩ : ∃ bs t, Run Step Fails s bs t ∧ t.reader = .dialing := by
    rcases hr with hr | ⟨statuses, orders, hr⟩
    · obtain ⟨bs, t, hrun, hdial⟩ := hw.swaps.releases rfl
      exact ⟨_, t, hrun.cons rfl (.swapped hr), hdial⟩
    · exact hw.releases hr
  refine ⟨bs, t, hrun, hdial, fun i hc => ?_⟩
  have hfail : Run Step Orderly s bs t := hrun.mono fun t a ha => ha ▸ ⟨trivial, trivial⟩
  obtain ⟨-, htracked⟩ := orderly_tracked (h.trans hfail)
  obtain ⟨c, hc⟩ := Option.ne_none_iff_exists'.mp hc
  refine htracked.released_of_gone (c := c) ((fails_conn hrun i).trans hc) ?_ (hdial ▸ id)
  rw [htracked.down (hdial ▸ trivial)]
  exact nofun

/-- A call whose connection is lost while it waits for its acknowledgement. -/
theorem every_submit_answered_lost : ∃ as s, Run Step Orderly (start 0) as s ∧
    (s.calls 0).conn = some 0 ∧ (s.calls 0).Waits ∧
      ∃ bs t, Run Step Fails s bs t ∧ (t.calls 0).Released := by
  have hrun : Run Step Orderly (start 0) _ _ := Run.nil
    |>.snoc (by exact ⟨trivial, trivial⟩) (.dialed rfl)
    |>.snoc (by exact ⟨trivial, trivial⟩) (.gotAccount (a := ⟨1, true, 0⟩) rfl)
    |>.snoc (by exact ⟨fun _ h => absurd rfl h, trivial⟩) (.drawn (i := 0) rfl)
    |>.snoc (by exact ⟨trivial, trivial⟩) (.registered (i := 0) rfl)
    |>.snoc (by exact ⟨trivial, trivial⟩) (.written (i := 0) rfl rfl)
    |>.snoc (by exact ⟨trivial, trivial⟩) (.readFailed rfl)
    |>.snoc (by exact ⟨trivial, trivial⟩) (.cleared rfl)
  obtain ⟨-, -, hreleases⟩ := every_submit_answered hrun
  obtain ⟨bs, t, hfails, -, hreleased⟩ := hreleases (.inl rfl)
  exact ⟨_, _, hrun, rfl, .inl ⟨.inr rfl, rfl, rfl⟩, bs, t, hfails, hreleased 0 nofun⟩

/-- Where an orderly run would go wrong: the session gives way, and a call is left behind. -/
theorem again_strands {w : Nat} {as : List TradingAction} (h : Run Step Orderly (start w) as s)
    (hs : s.Step .again s') (hn : ¬ s.NoneWaits .again) :
    ∃ i c, (s'.calls i).conn = some c ∧ s'.conn = none ∧ s'.reader = .dialing ∧
      ¬ (s'.calls i).Released := by
  obtain ⟨-, ht⟩ := orderly_tracked h
  cases hs with
  | rejoined hr =>
    simp only [NoneWaits, not_forall, not_not] at hn
    obtain ⟨i, hc, hwait⟩ := hn
    obtain ⟨c, hc⟩ := Option.ne_none_iff_exists'.mp hc
    exact ⟨i, c, hc, ht.down (hr ▸ trivial), rfl, fun hdone => hdone.done hwait⟩

/-- An account appears while the session closes itself to look for one; an order submitted meanwhile
waits for an acknowledgement that nothing brings, and only its caller ends it. -/
theorem stranded : ∃ as s, Run Step NewID (start 0) as s ∧ (s.calls 0).conn = some 0 ∧
    s.conn = none ∧ s.reader = .dialing ∧ ¬ (s.calls 0).Released ∧
      ∀ u, (s.calls 0).Moves u → u.stage = .leaving (.error .canceled) := by
  have hrun : Run Step NewID (start 0) _ _ := Run.nil
    |>.snoc (by trivial) (.dialed rfl)
    |>.snoc (by trivial) (@Step.gotWallet _ [] rfl)
    |>.snoc (by trivial) (.rediscovers nofun rfl rfl)
    |>.snoc (by trivial) (.gotAccount (a := ⟨1, true, 0⟩) rfl)
    |>.snoc (by exact fun _ h => absurd rfl h) (.drawn (i := 0) rfl)
    |>.snoc (by trivial) (.registered (i := 0) rfl)
    |>.snoc (by trivial) (.written (i := 0) rfl rfl)
    |>.snoc (by trivial) (.readFailed rfl)
    |>.snoc (by trivial) (.cleared rfl)
    |>.snoc (by trivial) (.rejoined rfl)
  refine ⟨_, _, hrun, rfl, rfl, rfl, fun hdone => hdone.done (.inl ⟨.inr rfl, rfl, rfl⟩), ?_⟩
  intro u hu
  cases hu with
  | canceled _ => rfl
  | unconnected h _ => cases h
  | acked _ h _ => cases h
  | rejected _ h _ => cases h
  | updated h _ => cases h
  | unacked _ _ h => cases h
  | unheard h _ _ => cases h
  | timedOut h => cases h

end Trading
end SuperAgent.Perpl
