import SuperAgent.Perpl.Submit

/-!
# Waiters

A call's channels are registered with the client, in the reader's hands, or in
nobody's. Whoever has one finds it open, and an acknowledgement's channel empty
too, so that nothing is sent to a closed channel and none is closed twice; and
what arrives on it carries the call's own number.
-/

namespace SuperAgent.Perpl

/-- Whether a call's waiters were registered. -/
def Submit.Registered (u : Submit) : Prop := u.stage ≠ .idle ∧ u.stage ≠ .holding

/-- What a call was sent carries its numbers, and nothing is sent before it registers. -/
structure Submit.Own (u : Submit) : Prop where
  statuses : ∀ st ∈ u.statusCh.buf, st.corrID = u.sn
  orders : ∀ o ∈ u.orderCh.buf, o.requestID = u.rq
  result : ∀ o, u.stage = .leaving (.ok o) ∨ u.stage = .returned (.ok o) → o.requestID = u.rq
  fresh : ¬ u.Registered → u.statusCh.Idle ∧ u.orderCh.Idle

/-- What became of a registered call that received what it was sent, and closed nothing. -/
structure Submit.Keeps (u v : Submit) : Prop extends u.Later v where
  registered : u.Registered
  statusIdle : u.statusCh.Idle → v.statusCh.Idle
  closed : v.orderCh.closed = u.orderCh.closed
  statuses : ∀ st ∈ v.statusCh.buf, st ∈ u.statusCh.buf
  orders : ∀ o ∈ v.orderCh.buf, o ∈ u.orderCh.buf
  result : ∀ o, v.stage = .leaving (.ok o) ∨ v.stage = .returned (.ok o) →
    o ∈ u.orderCh.buf ∨ u.stage = .leaving (.ok o)

/-- The reader has a call's status channel to close. -/
def Reader.HoldsStatus : Reader → Nat → Prop
  | .acknowledging _ j, i => j = i
  | .failing statuses _, i => ∃ k, statuses k = some i
  | _, _ => False

/-- The reader has a call's order channel to close. -/
def Reader.HoldsOrder : Reader → Nat → Prop
  | .failing _ orders, i => ∃ k, orders k = some i
  | _, _ => False

/-- The reader has no call's channel. -/
def Reader.Free (r : Reader) : Prop :=
  (∀ st i, r ≠ .acknowledging st i) ∧ (∀ o i orders, r ≠ .sending o i orders) ∧
    ∀ statuses orders, r ≠ .failing statuses orders

namespace Submit

variable {u v : Submit}

theorem Later.registered (h : u.Later v) : v.Registered ↔ u.Registered :=
  and_congr (not_congr h.idle) (not_congr h.holding)

theorem Own.keeps (h : u.Own) (hk : u.Keeps v) : v.Own := by
  refine ⟨?_, ?_, ?_, ?_⟩
  · rw [hk.sn]
    exact fun st hst => h.statuses st (hk.statuses st hst)
  · rw [hk.rq]
    exact fun o ho => h.orders o (hk.orders o ho)
  · rw [hk.rq]
    intro o ho
    rcases hk.result o ho with hbuf | hleaving
    · exact h.orders o hbuf
    · exact h.result o (.inl hleaving)
  · exact fun hv => absurd (hk.toLater.registered.mpr hk.registered) hv

/-- A call goes on to a stage without an answer. -/
theorem keeps_stage {stage : Stage} (h : u.Registered)
    (hs : stage ≠ .idle ∧ stage ≠ .holding ∧ stage ≠ .writing)
    (ho : ∀ o, stage = .leaving (.ok o) ∨ stage = .returned (.ok o) → u.stage = .leaving (.ok o)) :
    u.Keeps { u with stage } :=
  ⟨later_stage h hs, h, id, rfl, fun _ => id, fun _ => id, fun o hr => .inr (ho o hr)⟩

theorem Moves.keeps (h : u.Moves v) : u.Keeps v := by
  have hlater := h.later
  cases h with
  | unconnected hu _ => exact keeps_stage (by simp [Registered, hu]) (by simp) (by simp)
  | unacked hu _ _ => exact keeps_stage (by simp [Registered, hu]) (by simp) (by simp)
  | unheard hu _ _ => exact keeps_stage (by simp [Registered, hu]) (by simp) (by simp)
  | timedOut hu => exact keeps_stage (by simp [Registered, hu]) (by simp) (by simp)
  | canceled hu =>
    refine keeps_stage ?_ (by simp) (by simp)
    rcases hu with hu | hu <;> simp [Registered, hu]
  | acked hu hbuf _ =>
    refine ⟨hlater, by simp [Registered, hu], ?_, rfl, ?_, fun _ => id, by simp⟩
    · intro hidle
      rw [hidle.1] at hbuf
      cases hbuf
    · intro st hst
      exact hbuf ▸ List.mem_cons_of_mem _ hst
  | rejected hu hbuf _ =>
    refine ⟨hlater, by simp [Registered, hu], ?_, rfl, ?_, fun _ => id, by simp⟩
    · intro hidle
      rw [hidle.1] at hbuf
      cases hbuf
    · intro st hst
      exact hbuf ▸ List.mem_cons_of_mem _ hst
  | @updated o buf hu hbuf =>
    refine ⟨hlater, by simp [Registered, hu], id, rfl, fun _ => id, ?_, ?_⟩
    · intro o' ho
      exact hbuf ▸ List.mem_cons_of_mem _ ho
    · rintro o' (heq | heq)
      · cases heq
        exact .inl (hbuf ▸ List.mem_cons_self)
      · cases heq

end Submit

namespace Trading

variable {s s' : Trading} {a : TradingAction} {i j k : Nat} {u : Submit}

/-- What the reader has belongs to registered calls, under their numbers. -/
structure Hands (s : Trading) : Prop where
  status : ∀ i, s.reader.HoldsStatus i → (s.calls i).Registered ∧ (s.calls i).statusCh.Idle
  order : ∀ i, s.reader.HoldsOrder i → (s.calls i).Registered ∧ (s.calls i).orderCh.closed = false
  acknowledging : ∀ st i, s.reader = .acknowledging st i → st.corrID = (s.calls i).sn
  sending : ∀ o i orders, s.reader = .sending o i orders →
    (s.calls i).Registered ∧ (s.calls i).orderCh.closed = false ∧ o.requestID = (s.calls i).rq
  failing : ∀ statuses orders, s.reader = .failing statuses orders →
    (∀ k i, statuses k = some i → (s.calls i).sn = k) ∧ ∀ k i, orders k = some i → (s.calls i).rq = k

/-- The client's waiters are registered calls under their numbers, with channels that are in nobody's
hands. -/
structure Maps (s : Trading) : Prop where
  status : ∀ k i, s.statusWaiters k = some i → (s.calls i).Registered ∧ (s.calls i).sn = k ∧
    (s.calls i).statusCh.Idle ∧ ¬ s.reader.HoldsStatus i
  order : ∀ k i, s.orderWaiters k = some i → (s.calls i).Registered ∧ (s.calls i).rq = k ∧
    (s.calls i).orderCh.closed = false ∧ ¬ s.reader.HoldsOrder i

/-- Numbers are given once. -/
structure Distinct (s : Trading) : Prop where
  seq : ∀ i, (s.calls i).Registered → (s.calls i).sn ≤ s.seq
  sn : ∀ i j, (s.calls i).Registered → (s.calls j).Registered → (s.calls i).sn = (s.calls j).sn → i = j
  rq : ∀ i j, (s.calls i).stage ≠ .idle → (s.calls j).stage ≠ .idle →
    (s.calls i).rq = (s.calls j).rq → i = j

/-- Every channel is with whoever may use it. -/
structure Wired (s : Trading) : Prop where
  own : ∀ i, (s.calls i).Own
  distinct : s.Distinct
  maps : s.Maps
  hands : s.Hands
  alive : s.panicked = false

/-- A free reader has nothing. -/
theorem free_holds {r : Reader} (h : r.Free) (i : Nat) : ¬ r.HoldsStatus i ∧ ¬ r.HoldsOrder i := by
  obtain ⟨hack, -, hfail⟩ := h
  cases r with
  | acknowledging st j => exact absurd rfl (hack st j)
  | failing statuses orders => exact absurd rfl (hfail statuses orders)
  | _ => exact ⟨id, id⟩

theorem Hands.of_free (h : s.reader.Free) : s.Hands where
  status i hi := absurd hi (free_holds h i).1
  order i hi := absurd hi (free_holds h i).2
  acknowledging st i hi := absurd hi (h.1 st i)
  sending o i orders hi := absurd hi (h.2.1 o i orders)
  failing statuses orders hi := absurd hi (h.2.2 statuses orders)

/-- Fewer waiters, with the same calls and a reader that keeps what it has or lets go of it. -/
theorem Wired.less (h : s.Wired) (hcalls : s'.calls = s.calls) (hseq : s'.seq = s.seq)
    (hstatus : ∀ k i, s'.statusWaiters k = some i → s.statusWaiters k = some i)
    (horder : ∀ k i, s'.orderWaiters k = some i → s.orderWaiters k = some i)
    (hreader : s'.reader = s.reader ∨ s'.reader.Free) (halive : s'.panicked = s.panicked) :
    s'.Wired := by
  obtain ⟨hown, hdistinct, hmaps, hhands, hal⟩ := h
  refine ⟨hcalls ▸ hown, ?_, ⟨fun k i hk => ?_, fun k i hk => ?_⟩, ?_, halive.trans hal⟩
  · obtain ⟨h1, h2, h3⟩ := hdistinct
    rw [← hcalls] at h1 h2 h3
    exact ⟨hseq ▸ h1, h2, h3⟩
  · rw [hcalls]
    obtain ⟨hreg, hsn, hidle, hfree⟩ := hmaps.status k i (hstatus k i hk)
    refine ⟨hreg, hsn, hidle, ?_⟩
    rcases hreader with hsame | hfr
    · exact hsame ▸ hfree
    · exact (free_holds hfr i).1
  · rw [hcalls]
    obtain ⟨hreg, hrq, hopen, hfree⟩ := hmaps.order k i (horder k i hk)
    refine ⟨hreg, hrq, hopen, ?_⟩
    rcases hreader with hsame | hfr
    · exact hsame ▸ hfree
    · exact (free_holds hfr i).2
  · rcases hreader with hsame | hfr
    · obtain ⟨h1, h2, h3, h4, h5⟩ := hhands
      rw [← hcalls, ← hsame] at *
      exact ⟨h1, h2, h3, h4, h5⟩
    · exact .of_free hfr

/-- What a change of one call leaves of the numbers. -/
theorem Distinct.later (h : s.Distinct) (hcalls : ∀ j, (s.calls j).Later (s'.calls j))
    (hseq : s'.seq = s.seq) : s'.Distinct := by
  refine ⟨fun j hj => ?_, fun j k hj hk heq => ?_, fun j k hj hk heq => ?_⟩
  · rw [(hcalls j).sn, hseq]
    exact h.seq j ((hcalls j).registered.mp hj)
  · rw [(hcalls j).sn, (hcalls k).sn] at heq
    exact h.sn j k ((hcalls j).registered.mp hj) ((hcalls k).registered.mp hk) heq
  · rw [(hcalls j).rq, (hcalls k).rq] at heq
    exact h.rq j k (fun hidle => hj ((hcalls j).idle.mpr hidle))
      (fun hidle => hk ((hcalls k).idle.mpr hidle)) heq

theorem later_set (hu : (s.calls i).Later u) (j : Nat) : (s.calls j).Later ((s.set i u).calls j) := by
  by_cases hj : j = i
  · subst hj
    rwa [set_self]
  · rw [set_of_ne hj]
    exact .refl _

/-- A registered call goes on, with its channels where they were. -/
theorem Wired.keeps (h : s.Wired) (hk : (s.calls i).Keeps u) : (s.set i u).Wired := by
  obtain ⟨hown, hdistinct, hmaps, hhands, halive⟩ := h
  have hlater := later_set hk.toLater
  have hother : ∀ j, (s.calls j).statusCh.Idle → ((s.set i u).calls j).statusCh.Idle := by
    intro j hidle
    by_cases hj : j = i
    · subst hj
      rw [set_self]
      exact hk.statusIdle hidle
    · rwa [set_of_ne hj]
  have hclosed : ∀ j, ((s.set i u).calls j).orderCh.closed = (s.calls j).orderCh.closed := by
    intro j
    by_cases hj : j = i
    · subst hj
      rw [set_self, hk.closed]
    · rw [set_of_ne hj]
  refine ⟨?_, hdistinct.later hlater rfl, ⟨fun k j hkj => ?_, fun k j hkj => ?_⟩,
    ⟨fun j hj => ?_, fun j hj => ?_, fun st j hj => ?_, fun o j orders hj => ?_,
      fun statuses orders hf => ?_⟩, halive⟩
  · intro j
    by_cases hj : j = i
    · subst hj
      rw [set_self]
      exact (hown j).keeps hk
    · rw [set_of_ne hj]
      exact hown j
  · obtain ⟨hreg, hsn, hidle, hfree⟩ := hmaps.status k j hkj
    exact ⟨(hlater j).registered.mpr hreg, (hlater j).sn.trans hsn, hother j hidle, hfree⟩
  · obtain ⟨hreg, hrq, hopen, hfree⟩ := hmaps.order k j hkj
    exact ⟨(hlater j).registered.mpr hreg, (hlater j).rq.trans hrq, (hclosed j).trans hopen, hfree⟩
  · obtain ⟨hreg, hidle⟩ := hhands.status j hj
    exact ⟨(hlater j).registered.mpr hreg, hother j hidle⟩
  · obtain ⟨hreg, hopen⟩ := hhands.order j hj
    exact ⟨(hlater j).registered.mpr hreg, (hclosed j).trans hopen⟩
  · exact (hhands.acknowledging st j hj).trans (hlater j).sn.symm
  · obtain ⟨hreg, hopen, hrq⟩ := hhands.sending o j orders hj
    exact ⟨(hlater j).registered.mpr hreg, (hclosed j).trans hopen, hrq.trans (hlater j).rq.symm⟩
  · obtain ⟨hsn, hrq⟩ := hhands.failing statuses orders hf
    exact ⟨fun k j hj => (hlater j).sn.trans (hsn k j hj),
      fun k j hj => (hlater j).rq.trans (hrq k j hj)⟩

/-- A call that has not registered is in no map and in nobody's hands. -/
theorem Wired.ne_of_unregistered (h : s.Wired) (hi : ¬ (s.calls i).Registered) :
    (∀ k, s.statusWaiters k ≠ some i) ∧ (∀ k, s.orderWaiters k ≠ some i) ∧
      ¬ s.reader.HoldsStatus i ∧ ¬ s.reader.HoldsOrder i ∧
      ∀ o orders, s.reader ≠ .sending o i orders :=
  ⟨fun k hk => hi (h.maps.status k i hk).1, fun k hk => hi (h.maps.order k i hk).1,
    fun hs => hi (h.hands.status i hs).1, fun ho => hi (h.hands.order i ho).1,
    fun o orders hr => hi (h.hands.sending o i orders hr).1⟩

/-- What concerns the other calls only. -/
theorem Hands.other (h : s.Hands) (hcalls : ∀ j, j ≠ i → s'.calls j = s.calls j)
    (hreader : s'.reader = s.reader)
    (hnot : ¬ s.reader.HoldsStatus i ∧ ¬ s.reader.HoldsOrder i ∧
      ∀ o orders, s.reader ≠ .sending o i orders) : s'.Hands := by
  obtain ⟨hstatus, horder, hsending⟩ := hnot
  refine ⟨fun j hj => ?_, fun j hj => ?_, fun st j hj => ?_, fun o j orders hj => ?_,
    fun statuses orders hf => ?_⟩
  · rw [hreader] at hj
    rw [hcalls j fun hji => hstatus (hji ▸ hj)]
    exact h.status j hj
  · rw [hreader] at hj
    rw [hcalls j fun hji => horder (hji ▸ hj)]
    exact h.order j hj
  · rw [hreader] at hj
    rw [hcalls j fun hji => hstatus (hji ▸ hj ▸ rfl)]
    exact h.acknowledging st j hj
  · rw [hreader] at hj
    rw [hcalls j fun hji => hsending o orders (hji ▸ hj)]
    exact h.sending o j orders hj
  · rw [hreader] at hf
    obtain ⟨hsn, hrq⟩ := h.failing statuses orders hf
    constructor
    · intro k j hj
      rw [hcalls j fun hji => hstatus (hji ▸ hf ▸ ⟨k, hj⟩)]
      exact hsn k j hj
    · intro k j hj
      rw [hcalls j fun hji => horder (hji ▸ hf ▸ ⟨k, hj⟩)]
      exact hrq k j hj

/-- A call begins, with an id no other call has. -/
theorem Wired.begins {rq : Nat} (h : s.Wired) (hi : (s.calls i).stage = .idle)
    (hrq : ∀ j, (s.calls j).stage ≠ .idle → (s.calls j).rq ≠ rq) :
    (s.set i { s.calls i with rq, stage := .holding }).Wired := by
  have hun : ¬ (s.calls i).Registered := fun hreg => hreg.1 hi
  obtain ⟨hnoStatus, hnoOrder, hnot⟩ := h.ne_of_unregistered hun
  obtain ⟨hown, hdistinct, hmaps, hhands, halive⟩ := h
  obtain ⟨hstatus, horder⟩ := (hown i).fresh hun
  have hreg : ∀ j, ((s.set i { s.calls i with rq, stage := .holding }).calls j).Registered →
      j ≠ i ∧ (s.calls j).Registered := by
    intro j hj
    by_cases hji : j = i
    · subst hji
      rw [set_self] at hj
      exact absurd rfl hj.2
    · rw [set_of_ne hji] at hj
      exact ⟨hji, hj⟩
  refine ⟨fun j => ?_, ⟨fun j hj => ?_, fun j k hj hk heq => ?_, fun j k hj hk heq => ?_⟩,
    ⟨fun k j hk => ?_, fun k j hk => ?_⟩, hhands.other (fun j hj => set_of_ne hj) rfl hnot, halive⟩
  · by_cases hji : j = i
    · subst hji
      rw [set_self]
      refine ⟨?_, ?_, by simp, fun _ => ⟨hstatus, horder⟩⟩
      · simp [hstatus.1]
      · simp [horder.1]
    · rw [set_of_ne hji]
      exact hown j
  · obtain ⟨hji, hj⟩ := hreg j hj
    rw [set_of_ne hji]
    exact hdistinct.seq j hj
  · obtain ⟨hji, hj⟩ := hreg j hj
    obtain ⟨hki, hk⟩ := hreg k hk
    rw [set_of_ne hji, set_of_ne hki] at heq
    exact hdistinct.sn j k hj hk heq
  · by_cases hji : j = i
    · by_cases hki : k = i
      · rw [hji, hki]
      · subst hji
        rw [set_of_ne hki] at hk
        rw [set_self, set_of_ne hki] at heq
        exact absurd heq.symm (hrq k hk)
    · by_cases hki : k = i
      · subst hki
        rw [set_of_ne hji] at hj
        rw [set_self, set_of_ne hji] at heq
        exact absurd heq (hrq j hj)
      · rw [set_of_ne hji] at hj heq
        rw [set_of_ne hki] at hk heq
        exact hdistinct.rq j k hj hk heq
  · have hji : j ≠ i := fun hji => hnoStatus k (hji ▸ hk)
    rw [set_of_ne hji]
    exact hmaps.status k j hk
  · have hji : j ≠ i := fun hji => hnoOrder k (hji ▸ hk)
    rw [set_of_ne hji]
    exact hmaps.order k j hk

/-- A call registers under a number nobody has. -/
theorem Wired.registers (h : s.Wired) (hi : (s.calls i).stage = .holding) :
    (s.registers i).Wired := by
  have hun : ¬ (s.calls i).Registered := fun hreg => hreg.2 hi
  obtain ⟨hnoStatus, hnoOrder, hnot⟩ := h.ne_of_unregistered hun
  obtain ⟨hown, hdistinct, hmaps, hhands, halive⟩ := h
  obtain ⟨hstatus, horder⟩ := (hown i).fresh hun
  have hself : ((s.registers i).calls i).Registered := by
    rw [registers_self]
    exact ⟨Stage.noConfusion, Stage.noConfusion⟩
  have hbegun : ∀ j, ((s.registers i).calls j).stage ≠ .idle → (s.calls j).stage ≠ .idle := by
    intro j hj
    by_cases hji : j = i
    · rw [hji, hi]
      exact Stage.noConfusion
    · rwa [registers_of_ne hji] at hj
  have hrq : ∀ j, ((s.registers i).calls j).rq = (s.calls j).rq := by
    intro j
    by_cases hji : j = i
    · rw [hji, registers_self]
    · rw [registers_of_ne hji]
  refine ⟨fun j => ?_, ⟨fun j hj => ?_, fun j k hj hk heq => ?_, fun j k hj hk heq => ?_⟩,
    ⟨fun k j hk => ?_, fun k j hk => ?_⟩, hhands.other (fun j hj => registers_of_ne hj) rfl hnot, halive⟩
  · by_cases hji : j = i
    · subst hji
      refine ⟨?_, ?_, ?_, fun hnot => absurd hself hnot⟩
      · simp [hstatus.1]
      · simp [horder.1]
      · simp
    · rw [registers_of_ne hji]
      exact hown j
  · by_cases hji : j = i
    · subst hji
      rw [registers_self]
      exact le_rfl
    · rw [registers_of_ne hji] at hj ⊢
      exact (hdistinct.seq j hj).trans (Nat.le_succ _)
  · have hlow : ∀ j, j ≠ i → ((s.registers i).calls j).Registered → (s.calls j).sn ≠ s.seq + 1 := by
      intro j hji hj
      rw [registers_of_ne hji] at hj
      exact (Nat.lt_succ_of_le (hdistinct.seq j hj)).ne
    by_cases hji : j = i
    · by_cases hki : k = i
      · rw [hji, hki]
      · subst hji
        rw [registers_self, registers_of_ne hki] at heq
        exact absurd heq.symm (hlow k hki hk)
    · by_cases hki : k = i
      · subst hki
        rw [registers_self, registers_of_ne hji] at heq
        exact absurd heq (hlow j hji hj)
      · rw [registers_of_ne hji] at hj heq
        rw [registers_of_ne hki] at hk heq
        exact hdistinct.sn j k hj hk heq
  · rw [hrq, hrq] at heq
    exact hdistinct.rq j k (hbegun j hj) (hbegun k hk) heq
  · rw [registers_statusWaiters] at hk
    by_cases hkey : k = s.seq + 1
    · subst hkey
      rw [Function.update_self] at hk
      obtain rfl : i = j := Option.some.inj hk
      exact ⟨hself, by rw [registers_self], by rw [registers_self]; exact hstatus, hnot.1⟩
    · rw [Function.update_of_ne hkey] at hk
      have hji : j ≠ i := fun hji => hnoStatus k (hji ▸ hk)
      rw [registers_of_ne hji]
      exact hmaps.status k j hk
  · rw [registers_orderWaiters] at hk
    by_cases hkey : k = (s.calls i).rq
    · subst hkey
      rw [Function.update_self] at hk
      obtain rfl : i = j := Option.some.inj hk
      exact ⟨hself, by rw [registers_self], by rw [registers_self]; exact horder.2, hnot.2.1⟩
    · rw [Function.update_of_ne hkey] at hk
      have hji : j ≠ i := fun hji => hnoOrder k (hji ▸ hk)
      rw [registers_of_ne hji]
      exact hmaps.order k j hk

/-! ## What the reader does -/

/-- What is left of a map once a key is deleted. -/
theorem of_update_none {m : Nat → Option Nat} {l : Nat} (h : Function.update m k none l = some j) :
    l ≠ k ∧ m l = some j := by
  by_cases hlk : l = k
  · rw [hlk, Function.update_self] at h
    cases h
  · rw [Function.update_of_ne hlk] at h
    exact ⟨hlk, h⟩

/-- The reader changes the status channel it has in its hands. -/
theorem Wired.setStatus {r : Reader} {ch : Chan StatusResponse} (h : s.Wired)
    (hheld : s.reader.HoldsStatus i) (hbuf : ∀ st ∈ ch.buf, st.corrID = (s.calls i).sn)
    (hstatus : ∀ j, r.HoldsStatus j → s.reader.HoldsStatus j)
    (horder : ∀ j, r.HoldsOrder j → s.reader.HoldsOrder j)
    (hhands : Hands { s.set i { s.calls i with statusCh := ch } with reader := r }) :
    Wired { s.set i { s.calls i with statusCh := ch } with reader := r } := by
  obtain ⟨hown, hdistinct, hmaps, hold, halive⟩ := h
  have hlater := later_set ((s.calls i).later_statusCh ch)
  have hreg : (s.calls i).Registered := (hold.status i hheld).1
  refine ⟨fun j => ?_, hdistinct.later hlater rfl, ⟨fun k j hk => ?_, fun k j hk => ?_⟩, hhands, halive⟩
  · by_cases hj : j = i
    · subst hj
      simp only [set_self]
      exact ⟨hbuf, (hown j).orders, (hown j).result, fun hnot => absurd hreg hnot⟩
    · simp only [set_of_ne hj]
      exact hown j
  · obtain ⟨hregj, hsn, hidle, hfree⟩ := hmaps.status k j hk
    have hj : j ≠ i := fun hj => hfree (hj ▸ hheld)
    simp only [set_of_ne hj]
    exact ⟨hregj, hsn, hidle, fun hr => hfree (hstatus j hr)⟩
  · obtain ⟨hregj, hrq, hopen, hfree⟩ := hmaps.order k j hk
    refine ⟨(hlater j).registered.mpr hregj, (hlater j).rq.trans hrq, ?_, fun hr => hfree (horder j hr)⟩
    by_cases hj : j = i
    · subst hj
      simpa only [set_self] using hopen
    · simpa only [set_of_ne hj] using hopen

/-- The reader changes the order channel it looked up or has in its hands. -/
theorem Wired.setOrder {r : Reader} {ch : Chan OrderUpdate} (h : s.Wired)
    (hreg : (s.calls i).Registered) (hbuf : ∀ o ∈ ch.buf, o.requestID = (s.calls i).rq)
    (hopen : ch.closed = false ∨ s.reader.HoldsOrder i)
    (hstatus : ∀ j, r.HoldsStatus j → s.reader.HoldsStatus j)
    (horder : ∀ j, r.HoldsOrder j → s.reader.HoldsOrder j)
    (hhands : Hands { s.set i { s.calls i with orderCh := ch } with reader := r }) :
    Wired { s.set i { s.calls i with orderCh := ch } with reader := r } := by
  obtain ⟨hown, hdistinct, hmaps, hold, halive⟩ := h
  have hlater := later_set ((s.calls i).later_orderCh ch)
  refine ⟨fun j => ?_, hdistinct.later hlater rfl, ⟨fun k j hk => ?_, fun k j hk => ?_⟩, hhands, halive⟩
  · by_cases hj : j = i
    · subst hj
      simp only [set_self]
      exact ⟨(hown j).statuses, hbuf, (hown j).result, fun hnot => absurd hreg hnot⟩
    · simp only [set_of_ne hj]
      exact hown j
  · obtain ⟨hregj, hsn, hidle, hfree⟩ := hmaps.status k j hk
    refine ⟨(hlater j).registered.mpr hregj, (hlater j).sn.trans hsn, ?_, fun hr => hfree (hstatus j hr)⟩
    by_cases hj : j = i
    · subst hj
      simpa only [set_self] using hidle
    · simpa only [set_of_ne hj] using hidle
  · obtain ⟨hregj, hrq, hopenj, hfree⟩ := hmaps.order k j hk
    refine ⟨(hlater j).registered.mpr hregj, (hlater j).rq.trans hrq, ?_, fun hr => hfree (horder j hr)⟩
    by_cases hj : j = i
    · subst hj
      simp only [set_self]
      exact hopen.resolve_right hfree
    · simpa only [set_of_ne hj] using hopenj

/-- The reader takes the waiter of an acknowledgement. -/
theorem Wired.takes {st : StatusResponse} (h : s.Wired)
    (hk : s.statusWaiters st.corrID = some i) : Wired { s with
      statusWaiters := Function.update s.statusWaiters st.corrID none
      reader := .acknowledging st i } := by
  obtain ⟨hown, hdistinct, hmaps, hold, halive⟩ := h
  obtain ⟨hreg, hsn, hidle, -⟩ := hmaps.status _ _ hk
  refine ⟨hown, ⟨hdistinct.seq, hdistinct.sn, hdistinct.rq⟩, ⟨fun k j hkj => ?_, fun k j hkj => ?_⟩,
    ⟨?_, nofun, ?_, nofun, nofun⟩, halive⟩
  · obtain ⟨hkey, hkj⟩ := of_update_none hkj
    obtain ⟨hregj, hsnj, hidlej, -⟩ := hmaps.status k j hkj
    refine ⟨hregj, hsnj, hidlej, ?_⟩
    rintro rfl
    exact hkey (hsnj.symm.trans hsn)
  · obtain ⟨hregj, hrqj, hopenj, -⟩ := hmaps.order k j hkj
    exact ⟨hregj, hrqj, hopenj, id⟩
  · rintro j rfl
    exact ⟨hreg, hidle⟩
  · rintro st' j ⟨⟩
    exact hsn.symm

/-- The reader looks the waiter of an update up. -/
theorem Wired.looksUp {o : OrderUpdate} {orders : List OrderUpdate} (h : s.Wired)
    (hk : s.orderWaiters o.requestID = some i) : Wired { s with reader := .sending o i orders } := by
  obtain ⟨hown, hdistinct, hmaps, -, halive⟩ := h
  obtain ⟨hreg, hrq, hopen, -⟩ := hmaps.order _ _ hk
  refine ⟨hown, ⟨hdistinct.seq, hdistinct.sn, hdistinct.rq⟩, ⟨fun k j hkj => ?_, fun k j hkj => ?_⟩,
    ⟨nofun, nofun, nofun, ?_, nofun⟩, halive⟩
  · obtain ⟨hregj, hsnj, hidlej, -⟩ := hmaps.status k j hkj
    exact ⟨hregj, hsnj, hidlej, id⟩
  · obtain ⟨hregj, hrqj, hopenj, -⟩ := hmaps.order k j hkj
    exact ⟨hregj, hrqj, hopenj, id⟩
  · rintro o' j orders' ⟨⟩
    exact ⟨hreg, hopen, hrq.symm⟩

/-- The reader takes all waiters. -/
theorem Wired.swaps (h : s.Wired) : Wired { s with
    statusWaiters := fun _ => none
    orderWaiters := fun _ => none
    reader := .failing s.statusWaiters s.orderWaiters } := by
  obtain ⟨hown, hdistinct, hmaps, -, halive⟩ := h
  refine ⟨hown, ⟨hdistinct.seq, hdistinct.sn, hdistinct.rq⟩, ⟨nofun, nofun⟩,
    ⟨?_, ?_, nofun, nofun, ?_⟩, halive⟩
  · rintro i ⟨k, hk⟩
    obtain ⟨hreg, -, hidle, -⟩ := hmaps.status k i hk
    exact ⟨hreg, hidle⟩
  · rintro i ⟨k, hk⟩
    obtain ⟨hreg, -, hopen, -⟩ := hmaps.order k i hk
    exact ⟨hreg, hopen⟩
  · rintro statuses orders ⟨⟩
    exact ⟨fun k i hk => (hmaps.status k i hk).2.1, fun k i hk => (hmaps.order k i hk).2.1⟩

section Failing

variable {statuses orders : Nat → Option Nat}

/-- The reader closes one of the status channels it took. -/
theorem Wired.failsStatus {ch : Chan StatusResponse} (h : s.Wired)
    (hr : s.reader = .failing statuses orders) (hk : statuses k = some i)
    (hch : (s.calls i).statusCh.close = some ch) :
    Wired { s.set i { s.calls i with statusCh := ch } with
      reader := .failing (Function.update statuses k none) orders } := by
  have hheld : s.reader.HoldsStatus i := hr ▸ ⟨k, hk⟩
  obtain ⟨hreg, hidle⟩ := h.hands.status i hheld
  rw [Chan.close_eq_some hidle.2] at hch
  obtain rfl := Option.some.inj hch
  obtain ⟨hsn, hrq⟩ := h.hands.failing statuses orders hr
  have hlater := later_set ((s.calls i).later_statusCh { (s.calls i).statusCh with closed := true })
  have hlast : ∀ j, (∃ l, Function.update statuses k none l = some j) →
      j ≠ i ∧ s.reader.HoldsStatus j := by
    rintro j ⟨l, hl⟩
    obtain ⟨hlk, hl⟩ := of_update_none hl
    refine ⟨?_, hr ▸ ⟨l, hl⟩⟩
    rintro rfl
    exact hlk ((hsn l j hl).symm.trans (hsn k j hk))
  refine h.setStatus hheld ?_ (fun j hj => (hlast j hj).2) (fun j hj => hr ▸ hj)
    ⟨fun j hj => ?_, fun j hj => ?_, nofun, nofun, ?_⟩
  · rw [hidle.1]
    exact nofun
  · obtain ⟨hji, hold⟩ := hlast j hj
    simp only [set_of_ne hji]
    exact h.hands.status j hold
  · have hold : s.reader.HoldsOrder j := hr ▸ hj
    obtain ⟨hregj, hopen⟩ := h.hands.order j hold
    refine ⟨(hlater j).registered.mpr hregj, ?_⟩
    by_cases hji : j = i
    · subst hji
      simpa only [set_self] using hopen
    · simpa only [set_of_ne hji] using hopen
  · rintro statuses' orders' ⟨⟩
    constructor
    · exact fun l j hl => (hlater j).sn.trans (hsn l j (of_update_none hl).2)
    · exact fun l j hl => (hlater j).rq.trans (hrq l j hl)

/-- The reader closes one of the order channels it took. -/
theorem Wired.failsOrder {ch : Chan OrderUpdate} (h : s.Wired)
    (hr : s.reader = .failing statuses orders) (hk : orders k = some i)
    (hch : (s.calls i).orderCh.close = some ch) :
    Wired { s.set i { s.calls i with orderCh := ch } with
      reader := .failing statuses (Function.update orders k none) } := by
  have hheld : s.reader.HoldsOrder i := hr ▸ ⟨k, hk⟩
  obtain ⟨hreg, hopen⟩ := h.hands.order i hheld
  rw [Chan.close_eq_some hopen] at hch
  obtain rfl := Option.some.inj hch
  obtain ⟨hsn, hrq⟩ := h.hands.failing statuses orders hr
  have hlater := later_set ((s.calls i).later_orderCh { (s.calls i).orderCh with closed := true })
  have hlast : ∀ j, (∃ l, Function.update orders k none l = some j) →
      j ≠ i ∧ s.reader.HoldsOrder j := by
    rintro j ⟨l, hl⟩
    obtain ⟨hlk, hl⟩ := of_update_none hl
    refine ⟨?_, hr ▸ ⟨l, hl⟩⟩
    rintro rfl
    exact hlk ((hrq l j hl).symm.trans (hrq k j hk))
  refine h.setOrder hreg (h.own i).orders (.inr hheld) (fun j hj => hr ▸ hj)
    (fun j hj => (hlast j hj).2) ⟨fun j hj => ?_, fun j hj => ?_, nofun, nofun, ?_⟩
  · have hold : s.reader.HoldsStatus j := hr ▸ hj
    obtain ⟨hregj, hidle⟩ := h.hands.status j hold
    refine ⟨(hlater j).registered.mpr hregj, ?_⟩
    by_cases hji : j = i
    · subst hji
      simpa only [set_self] using hidle
    · simpa only [set_of_ne hji] using hidle
  · obtain ⟨hji, hold⟩ := hlast j hj
    simp only [set_of_ne hji]
    exact h.hands.order j hold
  · rintro statuses' orders' ⟨⟩
    constructor
    · exact fun l j hl => (hlater j).sn.trans (hsn l j hl)
    · exact fun l j hl => (hlater j).rq.trans (hrq l j (of_update_none hl).2)

end Failing

/-! ## Every step -/

/-- The id a call begins with is no other call's. -/
def NewID (s : Trading) : TradingAction → Prop
  | .given _ rq => ∀ j, (s.calls j).stage ≠ .idle → (s.calls j).rq ≠ rq
  | .draw _ => ∀ j, (s.calls j).stage ≠ .idle → (s.calls j).rq ≠ s.client.draw.2
  | _ => True

theorem start_wired (wantAccount : Nat) : (start wantAccount).Wired where
  own _ := ⟨nofun, nofun, by simp [start, Submit.new], fun _ => ⟨⟨rfl, rfl⟩, rfl, rfl⟩⟩
  distinct := ⟨fun _ h => absurd rfl h.1, fun _ _ h => absurd rfl h.1, fun _ _ h => absurd rfl h⟩
  maps := ⟨nofun, nofun⟩
  hands := .of_free ⟨nofun, nofun, nofun⟩
  alive := rfl

theorem Wired.step (h : s.Wired) (hn : s.NewID a) (hs : s.Step a s') : s'.Wired := by
  cases hs with
  | given hi => exact h.begins hi hn
  | drawn hi => exact (h.begins hi hn).less rfl rfl (fun _ _ => id) (fun _ _ => id) (.inl rfl) rfl
  | registered hi => exact h.registers hi
  | @written i c hi _ =>
    have hkeeps : (s.calls i).Keeps { s.calls i with stage := .acking } :=
      Submit.keeps_stage (by simp [Submit.Registered, hi]) (by simp) (by simp)
    exact (h.keeps hkeeps).less rfl rfl (fun _ _ => id) (fun _ _ => id) (.inl rfl) rfl
  | @unwritten i c left hi _ =>
    have hkeeps : (s.calls i).Keeps { s.calls i with stage := .leaving (.error .unwritten) } :=
      Submit.keeps_stage (by simp [Submit.Registered, hi]) (by simp) (by simp)
    exact (h.keeps hkeeps).less rfl rfl (fun _ _ => id) (fun _ _ => id) (.inl rfl) rfl
  | moved hu => exact h.keeps hu.keeps
  | @left i r hi =>
    have hkeeps : (s.calls i).Keeps { s.calls i with stage := .returned r } :=
      Submit.keeps_stage (by simp [Submit.Registered, hi]) (by simp) (by simp [hi])
    exact (h.keeps hkeeps).less rfl rfl (fun _ _ hk => (of_update_none hk).2)
      (fun _ _ hk => (of_update_none hk).2) (.inl rfl) rfl
  | gotStatus _ hk => exact h.takes hk
  | @acknowledged st i ch hr _ hch =>
    have hheld : s.reader.HoldsStatus i := hr ▸ rfl
    obtain ⟨hreg, hidle⟩ := h.hands.status i hheld
    rw [Chan.send_close_eq_some hidle.2] at hch
    obtain rfl := Option.some.inj hch
    refine h.setStatus hheld ?_ nofun nofun (.of_free ⟨nofun, nofun, nofun⟩)
    intro st' hst
    rw [hidle.1, List.nil_append, List.mem_singleton] at hst
    exact hst ▸ h.hands.acknowledging st i hr
  | @acknowledgePanics st i hr hch =>
    obtain ⟨-, hidle⟩ := h.hands.status i (hr ▸ rfl)
    rw [Chan.send_close_eq_some hidle.2] at hch
    cases hch
  | lookedUp _ hk => exact h.looksUp hk
  | @offered o i orders ch hr hch =>
    obtain ⟨hreg, hopen, hrq⟩ := h.hands.sending o i orders hr
    obtain ⟨d, hd, hdopen, hdbuf⟩ := Chan.trySend_eq_some (v := o) hopen
    obtain rfl : d = ch := Option.some.inj (hd.symm.trans hch)
    refine h.setOrder hreg ?_ (.inl hdopen) nofun nofun (.of_free ⟨nofun, nofun, nofun⟩)
    intro o' ho
    rcases hdbuf with hbuf | rfl
    · rw [hbuf, List.mem_append, List.mem_singleton] at ho
      rcases ho with ho | rfl
      · exact (h.own i).orders o' ho
      · exact hrq
    · exact (h.own i).orders o' ho
  | @offerPanics o i orders hr hch =>
    obtain ⟨-, hopen, -⟩ := h.hands.sending o i orders hr
    obtain ⟨d, hd, -⟩ := Chan.trySend_eq_some (v := o) hopen
    rw [hd] at hch
    cases hch
  | swapped _ => exact h.swaps
  | failedStatus hr hk hch => exact h.failsStatus hr hk hch
  | failedOrder hr _ hk hch => exact h.failsOrder hr hk hch
  | @statusPanics statuses orders k i hr hk hch =>
    obtain ⟨-, hidle⟩ := h.hands.status i (hr ▸ ⟨k, hk⟩)
    rw [Chan.close_eq_some hidle.2] at hch
    cases hch
  | @orderPanics statuses orders k i hr _ hk hch =>
    obtain ⟨-, hopen⟩ := h.hands.order i (hr ▸ ⟨k, hk⟩)
    rw [Chan.close_eq_some hopen] at hch
    cases hch
  | gotWallet _ | gotAccount _ | gotOther _ | rediscovers _ _ _ =>
    exact h.less rfl rfl (fun _ _ => id) (fun _ _ => id) (.inl rfl) rfl
  | gotOrders _ | nobody _ _ | delivered _ | readFailed _ | badFrame _ | cleared _ | rejoined _
  | failed _ _ _ | dialed _ | undialed _ | stopped _ =>
    exact h.less rfl rfl (fun _ _ => id) (fun _ _ => id) (.inr ⟨nofun, nofun, nofun⟩) rfl

end Trading
end SuperAgent.Perpl
