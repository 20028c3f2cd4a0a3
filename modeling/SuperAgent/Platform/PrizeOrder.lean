import SuperAgent.Contract.Solvency
import SuperAgent.Platform.PrizeFunding

/-!
# Funding before settlement

A pool the desk settles is either one it funded itself, and then with all the
week's receipt allocated to it, or one that other money made worth settling:
money carried from the week before, or paid in by others. The desk does not tell
the two apart, and the second may be settled before the week's receipt.
-/

namespace SuperAgent.Platform

open Contract (Week Strategy Address Amount TestToken)
open Fixed (D)

/-! ## Settled and worth settling -/

section Contract

variable {τ : Type} {tok : Contract.IERC20 τ} {this : Address} {call : Contract.Call}
  {c c' : Contract.Chain τ} {events : List Contract.Event} {k : Contract.Slot}

/-- A pool that has money keeps some until it is settled. -/
theorem pool_kept (h : call.exec tok this c = .ok (c', events))
    (hk : c.storage.settled k = true ∨ c.storage.pool k ≠ 0) :
    c'.storage.settled k = true ∨ c'.storage.pool k ≠ 0 := by
  cases Contract.exec_effect h with
  | admin _ storage =>
    obtain ⟨_, _, hs⟩ := storage
    rwa [hs]
  | fund k' amount total unsettled _ adds storage =>
    rw [storage]
    rcases hk with hk | hk
    · exact .inl hk
    · right
      by_cases heq : k = k'
      · subst heq
        have hpos : (c.storage.pool k).toNat ≠ 0 := fun h0 => hk (BitVec.eq_of_toNat_eq h0)
        simp only [Function.update_self]
        intro hzero
        rw [hzero, show (0 : Amount).toNat = 0 from rfl] at adds
        omega
      · simpa only [Function.update_of_ne heq] using hk
  | settle week strategy winners amounts carried stale op token settlement =>
    rw [settlement.settled']
    by_cases heq : k = (week, strategy)
    · left
      rw [heq, Function.update_self]
    · rw [Function.update_of_ne heq]
      refine hk.imp_right fun hpool => ?_
      by_cases hnext : k = (week + 1, strategy)
      · subst hnext
        have hpos : (c.storage.pool (week + 1, strategy)).toNat ≠ 0 :=
          fun h0 => hpool (BitVec.eq_of_toNat_eq h0)
        intro hzero
        have hnext := settlement.pool_next
        rw [hzero, show (0 : Amount).toNat = 0 from rfl] at hnext
        omega
      · rwa [settlement.pool_other k heq hnext]
  | sweep _ _ storage => rwa [storage]
  | claim _ _ _ _ _ _ storage => rwa [storage]

/-- A slot becomes settled by its own settlement only. -/
theorem settled_by (h : call.exec tok this c = .ok (c', events))
    (hk : c'.storage.settled k = true) : c.storage.settled k = true ∨
      ∃ winners amounts pnls, call.op = .settle k.1 k.2 winners amounts pnls := by
  cases Contract.exec_effect h with
  | admin _ storage =>
    obtain ⟨_, _, hs⟩ := storage
    rw [hs] at hk
    exact .inl hk
  | fund _ _ _ _ _ _ storage =>
    rw [storage] at hk
    exact .inl hk
  | settle week strategy winners amounts carried stale op token settlement =>
    rw [settlement.settled'] at hk
    by_cases heq : k = (week, strategy)
    · obtain ⟨pnls, hop⟩ := op
      exact .inr ⟨winners, amounts, pnls, by rw [heq]; exact hop⟩
    · rw [Function.update_of_ne heq] at hk
      exact .inl hk
  | sweep _ _ storage =>
    rw [storage] at hk
    exact .inl hk
  | claim _ _ _ _ _ _ storage =>
    rw [storage] at hk
    exact .inl hk

end Contract

variable {τ : Type} {cfg : PrizeConfig τ} {d d' : Desk τ} {job job' : Job} {key : FundKey}

/-! ## What the desk is about to settle -/

/-- The settlement a transaction publishes. -/
def Payload.publications : Payload → List Publication
  | .fund _ _ => []
  | .settle p => [p]

/-- The settlements a call has computed or sent. -/
def Job.publications : Job → List Publication
  | .publishing p _ => [p]
  | .awaiting tx next => tx.payload.publications ++ next.publications
  | _ => []

/-- What a call has sent is among its settlements. -/
theorem Job.publications_of_sent {tx : Tx} {p : Publication} (h : tx ∈ job.sent)
    (hp : p ∈ tx.payload.publications) : p ∈ job.publications := by
  induction job with
  | awaiting tx' next ih =>
    rw [Job.sent] at h
    rcases List.mem_cons.mp h with rfl | h
    · exact List.mem_append_left _ hp
    · exact List.mem_append_right _ (ih h)
  | _ => simp [Job.sent] at h

/-- The settlements of past transactions. -/
def Past.publications (p : Past) : List Publication := p.tx.payload.publications

/-- A slot that is settled or has money. -/
def Worth (cfg : PrizeConfig τ) (c : Contract.Chain τ) (p : Publication) : Prop :=
  c.storage.settled (cfg.slot (p.week, p.strategy)) = true ∨
    c.storage.pool (cfg.slot (p.week, p.strategy)) ≠ 0

/-- Mining a transaction leaves worth settling what was. -/
theorem Worth.mine {c : Contract.Chain τ} {p : Publication} (h : Worth cfg c p) (tx : Tx)
    (timestamp : BitVec 256) : Worth cfg (tx.mine cfg timestamp c).1 p := by
  rcases tx.mine_cases cfg timestamp c with ⟨_, hexec, _⟩ | ⟨hc, _⟩
  · exact pool_kept hexec h
  · rwa [hc]

/-- A slot that mining a transaction settles is the one it publishes. -/
theorem Tx.mine_settled {tx : Tx} {timestamp : BitVec 256} {c : Contract.Chain τ}
    (h : (tx.mine cfg timestamp c).1.storage.settled (cfg.slot key) = true) :
    c.storage.settled (cfg.slot key) = true ∨ ∃ p, tx.payload = .settle p ∧
      (tx.mine cfg timestamp c).2.fate = .mined ∧ cfg.slot key = cfg.slot (p.week, p.strategy) := by
  rcases tx.mine_cases cfg timestamp c with ⟨_, hexec, hmined⟩ | ⟨hc, _⟩
  · refine (settled_by hexec h).imp_right ?_
    rintro ⟨winners, amounts, pnls, hop⟩
    cases hpay : tx.payload with
    | fund k a =>
      rw [hpay] at hop
      cases hop
    | settle p =>
      rw [hpay] at hop
      simp only [Payload.op, Contract.Op.settle.injEq] at hop
      exact ⟨p, rfl, by rw [hmined], Prod.ext hop.1.symm hop.2.1.symm⟩
  · exact .inl (hc ▸ h)

theorem Tx.unfunded_pending (tx : Tx) (h : tx.fate = .pending) :
    tx.unfunded = tx.payload.entries := by
  rw [Tx.unfunded, if_neg (by simp [h])]

/-- Where a call's step gets its settlements from, and what it does to the chain and to what is
owed. -/
structure Paced (cfg : PrizeConfig τ) (d : Desk τ) (job : Job) (a : JobAction) (d' : Desk τ)
    (job' : Job) : Prop where
  chain : d'.chain = d.chain ∨ ∃ tx next timestamp, job = .awaiting tx next ∧
    a = .mine timestamp ∧ d'.chain = (tx.mine cfg timestamp d.chain).1
  publications : ∀ p, p ∈ job'.publications ∨ p ∈ d'.past.flatMap Past.publications →
    (p ∈ job.publications ∨ p ∈ d.past.flatMap Past.publications) ∨ Worth cfg d.chain p
  owes : ∀ key, (∀ tx next, a = .giveUp → job = .awaiting tx next → tally key tx.funded = 0) →
    tally key d'.due + tally key job'.owes ≤ tally key d.due + tally key job.owes

theorem Paced.still {a : JobAction} (hc : d'.chain = d.chain) (hd : d'.due = d.due)
    (hp : d'.past = d.past) (hpub : ∀ p ∈ job'.publications, p ∈ job.publications)
    (ho : ∀ key, tally key job'.owes ≤ tally key job.owes) : Paced cfg d job a d' job' where
  chain := .inl hc
  publications p h := by
    rw [hp] at h
    exact .inl (h.imp_left (hpub p))
  owes key _ := by
    rw [hd]
    exact Nat.add_le_add_left (ho key) _

theorem Desk.advance_paced {a : JobAction} (h : d.advance cfg job a = some (d', job')) :
    Paced cfg d job a d' job' := by
  unfold Desk.advance at h
  split at h
  · cases h
    refine ⟨.inl rfl, fun p hp => .inl (by simpa [Job.publications] using hp), fun key _ => ?_⟩
    simp [tally_owe, Job.owes]
  · split at h
    · next hperm =>
      cases h
      refine ⟨.inl rfl, fun p hp => .inl (by simpa [Job.publications] using hp), fun key _ => ?_⟩
      simp [Job.owes, tally_perm hperm]
    · cases h
  · cases h
    refine ⟨.inl rfl, fun p hp => .inl (by simpa [Job.publications] using hp), fun key _ => ?_⟩
    simp only [tally_bump, Job.owes, tally_cons]
    omega
  · cases h
    exact .still rfl rfl rfl (by simp [Job.publications, Payload.publications])
      fun key => by simp [Job.owes, Tx.unfunded, Payload.entries]
  · cases h
    exact .still rfl rfl rfl (by simp [Job.publications]) fun _ => by simp [Job.owes]
  · cases h
    exact .still rfl rfl rfl (by simp [Job.publications]) fun _ => by simp [Job.owes]
  · cases h
    exact .still rfl rfl rfl (by simp [Job.publications]) fun _ => by simp [Job.owes]
  · cases h
    exact .still rfl rfl rfl (by simp [Job.publications]) fun _ => by simp [Job.owes]
  · split at h
    · cases h
    · cases h
      exact .still rfl rfl rfl (by simp [Job.publications]) fun _ => by simp [Job.owes]
  · cases h
    exact .still rfl rfl rfl (by simp [Job.publications]) fun _ => by simp [Job.owes]
  · split at h
    · cases h
    · next hpool =>
      cases h
      refine ⟨.inl rfl, fun p hp => ?_, fun _ _ => by simp [Job.owes]⟩
      rcases hp with hp | hp
      · rw [List.mem_singleton.mp hp]
        exact .inr (.inr hpool)
      · exact .inl (.inr hp)
  · cases h
    exact .still rfl rfl rfl (by simp [Job.publications]) fun _ => by simp [Job.owes]
  · cases h
    exact .still rfl rfl rfl (by simp [Job.publications, Payload.publications])
      fun _ => by simp [Job.owes, Tx.unfunded, Payload.entries]
  · next tx _ timestamp =>
    split at h
    · next hpending =>
      cases h
      refine ⟨.inr ⟨_, _, _, rfl, rfl, rfl⟩, fun p hp => .inl ?_, fun key _ => ?_⟩
      · simpa [Job.publications] using hp
      · have hle : tally key (tx.mine cfg timestamp d.chain).2.unfunded ≤ tally key tx.unfunded := by
          rw [tx.unfunded_pending hpending, Tx.unfunded, Tx.mine_payload]
          split <;> simp
        simp only [Job.owes, tally_append]
        omega
    · cases h
  · split at h
    · cases h
      refine ⟨.inl rfl, fun p hp => .inl ?_, fun key _ => ?_⟩
      · simp only [List.flatMap_append, List.flatMap_singleton, List.mem_append,
          Job.publications, Past.publications] at hp ⊢
        tauto
      · simp only [Job.owes, tally_append]
        omega
    · cases h
  · next tx _ =>
    cases h
    refine ⟨.inl rfl, fun p hp => .inl ?_, fun key hkey => ?_⟩
    · simp only [List.flatMap_append, List.flatMap_singleton, List.mem_append,
        Job.publications, Past.publications] at hp ⊢
      tauto
    · have hnone := hkey tx _ rfl rfl
      have hsplit : tally key tx.payload.entries = _ := tx.tally_payload
      simp only [tally_putBack, Job.owes, tally_append]
      omega
  · cases h

/-- The settlements the desk has computed or sent. -/
def Desk.publications (d : Desk τ) : List Publication :=
  d.jobs.flatMap Job.publications ++ d.past.flatMap Past.publications

/-! ## Settled after it was funded -/

/-- What the desk's order of things keeps: what it settles has money, and what is settled has its
receipt and nothing owed to it. -/
structure Desk.Ordered (cfg : PrizeConfig τ) (d : Desk τ) : Prop where
  worth : ∀ p ∈ d.publications, Worth cfg d.chain p
  settled : ∀ key, d.chain.storage.settled (cfg.slot key) = true →
    (d.receipts key.1).isSome ∧ d.owed key = 0

/-- If the pool holds more than the desk has funded it with, the week's receipt is saved and
nothing is owed to the pool. -/
def Desk.Complete (cfg : PrizeConfig τ) (d : Desk τ) (p : Publication) : Prop :=
  ∀ id, cfg.strategyKey id = cfg.strategyKey p.strategy →
    d.credited (p.week, id) < (d.chain.storage.pool (cfg.slot (p.week, id))).toNat →
    (d.receipts p.week).isSome ∧ d.owed (p.week, id) = 0

/-- Pools with money of others are settled only when complete, and a fund transaction the desk
gives up on was not mined for a slot settled by then. -/
def FundedFirst (cfg : PrizeConfig τ) (d : Desk τ) : DeskAction τ → Prop
  | .job j (.mine timestamp) => ∀ tx next p, d.jobs[j]? = some (.awaiting tx next) →
      tx.payload = .settle p → (tx.mine cfg timestamp d.chain).2.fate = .mined → d.Complete cfg p
  | .mine n timestamp => ∀ q p, d.past[n]? = some q →
      q.tx.payload = .settle p → (q.tx.mine cfg timestamp d.chain).2.fate = .mined →
      d.Complete cfg p
  | .job j .giveUp => ∀ tx next, d.jobs[j]? = some (.awaiting tx next) → ∀ key,
      d.chain.storage.settled (cfg.slot key) = true → tally key tx.funded = 0
  | _ => True

theorem Past.credited_sublist (p : Past) : p.credited.Sublist p.entries := by
  unfold Past.credited Past.entries
  split
  · exact .refl _
  · exact p.tx.funded_sublist

/-- A pool the desk has funded is owed nothing more. -/
theorem Desk.Bounded.owed_eq_zero (hb : d.Bounded) (hpos : 0 < d.credited key) :
    (d.receipts key.1).isSome ∧ d.owed key = 0 := by
  have hpast := flatMap_sublist d.past fun p _ => p.credited_sublist
  have hsub := (flatMap_sublist d.jobs fun job _ => job.funded_sublist).append hpast
  have hwhole : Whole d.allocated (d.jobs.flatMap Job.funded ++ d.past.flatMap Past.credited) := by
    intro e he
    refine hb.whole e ?_
    have := hsub.subset he
    simp only [Desk.entries, List.mem_append] at this ⊢
    tauto
  have hall := hwhole.le_tally (k := key) (by rwa [tally_append])
  have hpast := tally_sublist (k := key) hpast
  have hle := hb.le key
  rw [Desk.held_eq, tally_jobs] at hle
  rw [Desk.credited] at hpos
  rw [tally_append] at hall
  constructor
  · by_contra hnone
    have hzero : d.allocated key = 0 := by
      rw [← Prod.mk.eta (p := key)]
      exact Desk.allocated_eq_zero (by simpa using hnone) _
    omega
  · rw [Desk.owed]
    omega

/-- A settlement that is mined finds the receipt saved and nothing owed. -/
theorem Desk.Ordered.published {p : Publication} (ho : d.Ordered cfg) (hb : d.Bounded)
    (hp : p ∈ d.publications) (hcomplete : d.Complete cfg p)
    (hkey : cfg.slot key = cfg.slot (p.week, p.strategy)) :
    (d.receipts key.1).isSome ∧ d.owed key = 0 := by
  by_cases hset : d.chain.storage.settled (cfg.slot key) = true
  · exact ho.settled key hset
  · have hpool : d.chain.storage.pool (cfg.slot key) ≠ 0 := by
      rw [hkey] at hset ⊢
      exact (ho.worth p hp).resolve_left hset
    obtain ⟨hweek, hid⟩ := Prod.mk.inj hkey
    obtain ⟨week, id⟩ := key
    obtain rfl : week = p.week := hweek
    by_cases hmore : d.credited (p.week, id) <
        (d.chain.storage.pool (cfg.slot (p.week, id))).toNat
    · exact hcomplete id hid hmore
    · refine hb.owed_eq_zero ?_
      have : (d.chain.storage.pool (cfg.slot (p.week, id))).toNat ≠ 0 :=
        fun h0 => hpool (BitVec.eq_of_toNat_eq h0)
      omega

/-- A call's step owes no more, unless it puts back what was funded. -/
theorem Desk.owed_advanced {j : Nat} {a : JobAction} {d₁ : Desk τ} (hjob : d.jobs[j]? = some job)
    (h : d.advance cfg job a = some (d₁, job'))
    (hkey : ∀ tx next, a = .giveUp → job = .awaiting tx next → tally key tx.funded = 0) :
    Desk.owed { d₁ with jobs := d₁.jobs.set j job' } key ≤ d.owed key := by
  have howes := (Desk.advance_paced h).owes key hkey
  have hset := tally_flatMap_set (k := key) job' Job.owes hjob
  rw [Desk.owed, Desk.owed, (Desk.advance_moved h).jobs]
  dsimp only
  omega

/-- The settlements after a call's step are those of before, or of a pool that has money. -/
theorem Desk.publications_advanced {j : Nat} {a : JobAction} {d₁ : Desk τ} {p : Publication}
    (hjob : d.jobs[j]? = some job) (h : d.advance cfg job a = some (d₁, job'))
    (hp : p ∈ Desk.publications { d₁ with jobs := d₁.jobs.set j job' }) :
    p ∈ d.publications ∨ Worth cfg d.chain p := by
  have hpub := (Desk.advance_paced h).publications p
  have hmem : ∀ job₁ ∈ d.jobs, p ∈ job₁.publications → p ∈ d.publications :=
    fun job₁ hjob₁ hp => List.mem_append_left _ (List.mem_flatMap.mpr ⟨job₁, hjob₁, hp⟩)
  have hold := hmem job (List.mem_of_getElem? hjob)
  rw [Desk.publications, (Desk.advance_moved h).jobs, List.mem_append] at hp
  rcases hp with hp | hp
  · obtain ⟨job₁, hjob₁, hp₁⟩ := List.mem_flatMap.mp hp
    rcases List.mem_or_eq_of_mem_set hjob₁ with hjob₁ | rfl
    · exact .inl (hmem job₁ hjob₁ hp₁)
    · exact (hpub (.inl hp₁)).imp_left fun hp => hp.elim hold (List.mem_append_right _)
  · exact (hpub (.inr hp)).imp_left fun hp => hp.elim hold (List.mem_append_right _)

theorem Desk.Ordered.advanced {j : Nat} {a : JobAction} {d₁ : Desk τ} (ho : d.Ordered cfg)
    (hb : d.Bounded) (hg : FundedFirst cfg d (.job j a)) (hjob : d.jobs[j]? = some job)
    (h : d.advance cfg job a = some (d₁, job')) :
    Desk.Ordered cfg { d₁ with jobs := d₁.jobs.set j job' } := by
  have hreceipts := (Desk.advance_moved h).receipts
  have hworth : ∀ p ∈ Desk.publications { d₁ with jobs := d₁.jobs.set j job' },
      Worth cfg d.chain p :=
    fun p hp => (Desk.publications_advanced hjob h hp).elim (ho.worth p) id
  rcases (Desk.advance_paced h).chain with hchain | ⟨tx, next, timestamp, rfl, rfl, hchain⟩
  · refine ⟨fun p hp => ?_, fun key hset => ?_⟩
    · show Worth cfg d₁.chain p
      rw [hchain]
      exact hworth p hp
    · have hset : d.chain.storage.settled (cfg.slot key) = true := hchain ▸ hset
      obtain ⟨hsome, hzero⟩ := ho.settled key hset
      refine ⟨hreceipts ▸ hsome, Nat.le_zero.mp (hzero ▸ Desk.owed_advanced hjob h ?_)⟩
      rintro tx next rfl rfl
      exact hg tx next hjob key hset
  · refine ⟨fun p hp => ?_, fun key hset => ?_⟩
    · show Worth cfg d₁.chain p
      rw [hchain]
      exact (hworth p hp).mine tx timestamp
    · have hdone : (d.receipts key.1).isSome ∧ d.owed key = 0 := by
        rcases Tx.mine_settled (hchain ▸ hset) with hset | ⟨p, hpay, hmined, hkey⟩
        · exact ho.settled key hset
        · refine ho.published hb ?_ (hg tx next p hjob hpay hmined) hkey
          refine List.mem_append_left _ (List.mem_flatMap.mpr ⟨_, List.mem_of_getElem? hjob, ?_⟩)
          simp [Job.publications, hpay, Payload.publications]
      refine ⟨hreceipts ▸ hdone.1, Nat.le_zero.mp (hdone.2 ▸ Desk.owed_advanced hjob h ?_)⟩
      rintro _ _ ⟨⟩

theorem Desk.Ordered.step {a : DeskAction τ} (ho : d.Ordered cfg) (hb : d.Bounded)
    (hg : FundedFirst cfg d a) (h : d.next cfg a = some d') : d'.Ordered cfg := by
  cases Desk.became h with
  | @received week amount fees _ hnone =>
    refine ⟨fun p hp => ho.worth p ?_, fun key hset => ?_⟩
    · simpa [Desk.publications, Job.publications] using hp
    · obtain ⟨hsome, hzero⟩ := ho.settled key hset
      have hne : key.1 ≠ week := fun heq => by simp [heq, hnone] at hsome
      refine ⟨by simpa [Function.update_of_ne hne] using hsome, ?_⟩
      rw [Desk.owed] at hzero ⊢
      simp only [List.flatMap_append, List.flatMap_singleton, tally_append, Job.owes,
        tally_keyed_ne hne]
      omega
  | @lost week amount fees _ hnone =>
    refine ⟨ho.worth, fun key hset => ?_⟩
    obtain ⟨hsome, hzero⟩ := ho.settled key hset
    have hne : key.1 ≠ week := fun heq => by simp [heq, hnone] at hsome
    exact ⟨by simpa [Function.update_of_ne hne] using hsome, hzero⟩
  | began hjob =>
    refine ⟨fun p hp => ho.worth p ?_, fun key hset => ?_⟩
    · rcases hjob with rfl | ⟨_, _, rfl⟩ <;> simpa [Desk.publications, Job.publications] using hp
    · refine (ho.settled key hset).imp_right fun hzero => ?_
      rcases hjob with rfl | ⟨_, _, rfl⟩ <;> simpa [Desk.owed, Job.owes] using hzero
  | advanced hjob hadv => exact ho.advanced hb hg hjob hadv
  | @mined n timestamp q hq _ =>
    have hpubs : Past.publications ⟨(q.tx.mine cfg timestamp d.chain).2, q.retried⟩ =
        q.publications := by
      simp only [Past.publications, Tx.mine_payload]
    refine ⟨fun p hp => Worth.mine (ho.worth p ?_) q.tx timestamp, fun key hset => ?_⟩
    · rw [Desk.publications] at hp ⊢
      rwa [flatMap_set _ hq hpubs] at hp
    · rcases Tx.mine_settled hset with hset | ⟨p, hpay, hmined, hkey⟩
      · exact ho.settled key hset
      · refine ho.published hb ?_ (hg q p hq hpay hmined) hkey
        refine List.mem_append_right _ (List.mem_flatMap.mpr ⟨q, List.mem_of_getElem? hq, ?_⟩)
        simp [Past.publications, hpay, Payload.publications]
  | restarted =>
    refine ⟨fun p hp => ho.worth p ?_, fun key hset => ⟨(ho.settled key hset).1, rfl⟩⟩
    simp only [Desk.publications, List.flatMap_nil, List.nil_append, List.flatMap_append,
      List.mem_append] at hp ⊢
    rcases hp with hp | hp
    · exact .inr hp
    · obtain ⟨past, hpast, hp⟩ := List.mem_flatMap.mp hp
      obtain ⟨tx, htx, rfl⟩ := List.mem_map.mp hpast
      obtain ⟨job, hjob, htx⟩ := List.mem_flatMap.mp htx
      exact .inl (List.mem_flatMap.mpr ⟨job, hjob, Job.publications_of_sent htx hp⟩)
  | @called c chain events hother hexec =>
    refine ⟨fun p hp => pool_kept hexec (ho.worth p hp), fun key hset => ?_⟩
    rcases settled_by hexec hset with hset | ⟨_, _, _, hop⟩
    · exact ho.settled key hset
    · rw [hop] at hother
      cases hother
  | token => exact ⟨ho.worth, ho.settled⟩
  | clock => exact ⟨ho.worth, ho.settled⟩

/-- In every order of receipts, retries and settlements in which a pool holding money of others is
settled only when complete: a settled slot had its receipt, has all that was allocated to it and
is owed nothing, so no funding the desk waits for is refused as already settled; and what is not
yet in the pools is still owed. -/
theorem funding_precedes_settlement {d₀ : Desk τ} {as : List (DeskAction τ)} (h0 : d₀.Fresh)
    (h : Run (DeskStep cfg) (fun d a => Remembers cfg d a ∧ FundedFirst cfg d a) d₀ as d)
    (key : FundKey) :
    (d.chain.storage.settled (cfg.slot key) = true →
      (d.receipts key.1).isSome ∧ d.allocated key ≤ d.funded key ∧ d.owed key = 0 ∧
      ∀ job ∈ d.jobs, ∀ tx ∈ job.sent, ∀ amount, tx.payload = .fund key amount →
        tx.fate = .mined ∨ amount = 0) ∧
    d.allocated key ≤ d.funded key + d.owed key := by
  have hremembered : d.allocated key ≤ d.funded key + d.owed key :=
    allocated_remembered h0 (h.mono fun _ _ hg => hg.1) key
  have hkept : d.Bounded ∧ d.Ordered cfg := by
    refine Run.invariant (I := fun d => d.Bounded ∧ d.Ordered cfg) h
      ⟨h0.bounded, ⟨fun p hp => ?_, fun k hk => ?_⟩⟩
      fun _ _ _ hi hg hs => ⟨hi.1.step hs, hi.2.step hi.1 hg.2 hs⟩
    · simp [Desk.publications, h0.jobs, h0.past] at hp
    · simp [h0.unsettled] at hk
  refine ⟨fun hset => ?_, hremembered⟩
  obtain ⟨hsome, hzero⟩ := hkept.2.settled key hset
  refine ⟨hsome, by omega, hzero, fun job hjob tx htx amount hpay => ?_⟩
  by_contra hopen
  rw [not_or] at hopen
  have htx := tally_sublist (k := key) (Job.unfunded_sublist htx)
  have hjobs := le_tally_flatMap (k := key) Job.owes hjob
  rw [Tx.unfunded, if_neg hopen.1, hpay] at htx
  simp only [Payload.entries, tally_cons, if_true, tally_nil] at htx
  rw [Desk.owed] at hzero
  omega

/-! ## Runs of a desk -/

/-- After week one was funded, the call that received it sends a settlement without winners. -/
def settlesWeekOne : List (DeskAction TestToken) :=
  [.job 0 .confirm, .job 0 .finish, .job 0 .skip, .job 0 .skip, .job 0 .ask,
    .job 0 (.read [] [] []), .job 0 .send]

/-- A week later the money it carried is settled, and then that week's fees are received. -/
def settlesCarried : List (DeskAction TestToken) :=
  [.job 0 (.mine 1500000), .clock (3 * 604800), .settleDue, .job 1 .skip, .job 1 .skip,
    .job 1 .ask, .job 1 (.read [] [] []), .job 1 .send, .job 1 (.mine 2000000),
    .receive 2 4000000 [("rsi", 400000000)], .job 2 .enqueue,
    .job 2 (.take [((2, "rsi"), 2000000)]), .job 2 .send, .job 2 (.mine 2000000)]

/-- The pool week one was carried into is settled before its week's receipt, and the funding the
receipt allocates to it is refused. -/
theorem carried_settles_first :
    ∃ d, Run (DeskStep halfBack) Always monday
        (weekOneFunded ++ settlesWeekOne ++ settlesCarried) d ∧
      d.chain.storage.settled (halfBack.slot (2, "rsi")) = true ∧
      d.allocated (2, "rsi") = 2000000 ∧ d.funded (2, "rsi") = 0 ∧ d.owed (2, "rsi") = 2000000 := by
  obtain ⟨d, hd, hbooks⟩ := Option.map_eq_some_iff.mp (show
    (exec (Desk.next halfBack) monday (weekOneFunded ++ settlesWeekOne ++ settlesCarried)).map
      (fun d => (d.chain.storage.settled (halfBack.slot (2, "rsi")), d.allocated (2, "rsi"),
        d.funded (2, "rsi"), d.owed (2, "rsi"))) = some (true, 2000000, 0, 2000000) by decide)
  simp only [Prod.mk.injEq] at hbooks
  exact ⟨d, Run.of_exec hd fun _ _ _ => trivial, hbooks⟩

/-- The desk with the funding of week one sent, then mined. -/
def sentWeekOne : Desk TestToken :=
  (exec (Desk.next halfBack) monday weekOne).get (by decide)

def fundedWeekOne : Desk TestToken :=
  (sentWeekOne.next halfBack (.job 0 (.mine 1500000))).get (by decide)

/-- The desk with the settlement of week one sent, then mined. -/
def settlingWeekOne : Desk TestToken :=
  (exec (Desk.next halfBack) fundedWeekOne settlesWeekOne).get (by decide)

def settledWeekOne : Desk TestToken :=
  (settlingWeekOne.next halfBack (.job 0 (.mine 1500000))).get (by decide)

theorem keccakOfId_eq_rsi {id : String} (h : keccakOfId id = keccakOfId "rsi") : id = "rsi" := by
  have hrsi : keccakOfId "rsi" =
      0x8d17ec0470c53d7b949d711d335b197101c9ed4536ca15bd8a176b16196dbaa0 := by decide
  rw [hrsi] at h
  unfold keccakOfId at h
  repeat' split at h
  all_goals first | assumption | exact absurd h (by decide)

theorem settlingWeekOne_complete : settlingWeekOne.Complete halfBack ⟨1, "rsi", [], [], []⟩ := by
  intro id hid hmore
  rw [keccakOfId_eq_rsi hid] at hmore
  exact absurd hmore (by decide)

theorem funding_precedes_settlement_weekOne :
    ∃ as, Run (DeskStep halfBack) (fun d a => Remembers halfBack d a ∧ FundedFirst halfBack d a)
        monday as settledWeekOne ∧
      settledWeekOne.chain.storage.settled (halfBack.slot (1, "rsi")) = true ∧
      (settledWeekOne.receipts 1).isSome ∧
      settledWeekOne.allocated (1, "rsi") ≤ settledWeekOne.funded (1, "rsi") := by
  have hsent : Run (DeskStep halfBack)
      (fun d a => Remembers halfBack d a ∧ FundedFirst halfBack d a) monday weekOne sentWeekOne :=
    Run.of_exec (Option.some_get _).symm (by simp [weekOne, Remembers, FundedFirst])
  have hmine : FundedFirst halfBack sentWeekOne (.job 0 (.mine 1500000)) := by
    rintro tx next p hjob hpay -
    cases hjob
    cases hpay
  have hfunded := hsent.snoc ⟨by trivial, hmine⟩
    (show DeskStep halfBack sentWeekOne _ fundedWeekOne from (Option.some_get _).symm)
  have hsettling : Run (DeskStep halfBack)
      (fun d a => Remembers halfBack d a ∧ FundedFirst halfBack d a) fundedWeekOne settlesWeekOne
        settlingWeekOne :=
    Run.of_exec (Option.some_get _).symm (by simp [settlesWeekOne, Remembers, FundedFirst])
  have hpublish : FundedFirst halfBack settlingWeekOne (.job 0 (.mine 1500000)) := by
    rintro tx next p hjob hpay -
    cases hjob
    cases hpay
    exact settlingWeekOne_complete
  have hsettled := (hfunded.trans hsettling).snoc ⟨by trivial, hpublish⟩
    (show DeskStep halfBack settlingWeekOne _ settledWeekOne from (Option.some_get _).symm)
  have hdone := (funding_precedes_settlement monday_fresh hsettled (1, "rsi")).1 (by decide)
  exact ⟨_, hsettled, by decide, hdone.1, hdone.2.1⟩

end SuperAgent.Platform
