import SuperAgent.Contract.Accounting
import SuperAgent.Contract.TestToken
import SuperAgent.Core.Run
import SuperAgent.Platform.PrizeBooks

/-!
# Funding from receipts

What a week's receipt allocates bounds what the desk funds, and stays owed until
it is funded. The first fails when a transaction the desk gave up on is mined
after all, the second when the process stops with something owed.
-/

namespace SuperAgent.Platform

open Contract (Week Strategy Address Amount TestToken)
open Fixed (D)

variable {τ : Type} {cfg : PrizeConfig τ} {d d' : Desk τ} {key : FundKey}

/-! ## Receipts -/

/-- Every receipt in the journal is one the desk made. -/
def Desk.Receipted (cfg : PrizeConfig τ) (d : Desk τ) : Prop :=
  ∀ week r, d.receipts week = some r → ∃ amount fees,
    (fees.map Prod.fst).Nodup ∧ r = cfg.receipt amount fees

theorem Desk.Receipted.saved {week : Week} {amount : Nat} {fees : List (String × D)}
    (h : d.Receipted cfg) (hnodup : (fees.map Prod.fst).Nodup)
    (hr : d'.receipts = Function.update d.receipts week (some (cfg.receipt amount fees))) :
    d'.Receipted cfg := by
  intro wk r hwk
  rw [hr] at hwk
  by_cases heq : wk = week
  · subst heq
    rw [Function.update_self] at hwk
    exact ⟨amount, fees, hnodup, (Option.some.inj hwk).symm⟩
  · rw [Function.update_of_ne heq] at hwk
    exact h wk r hwk

theorem Desk.Receipted.step {a : DeskAction τ} (hr : d.Receipted cfg)
    (h : d.next cfg a = some d') : d'.Receipted cfg := by
  cases Desk.became h with
  | received hnodup _ => exact hr.saved hnodup rfl
  | lost hnodup _ => exact hr.saved hnodup rfl
  | advanced _ hadv =>
    intro week r hwk
    exact hr week r ((Desk.advance_moved hadv).receipts ▸ hwk)
  | _ => exact hr

/-- What is given away of shares is at most what the shares are of. -/
theorem sum_shares_le (l : List (String × Nat)) (received total : Nat) :
    (l.map fun e => e.2 * received / total).sum ≤ (l.map Prod.snd).sum * received / total := by
  induction l with
  | nil => simp
  | cons e l ih =>
    simp only [List.map_cons, List.sum_cons]
    calc e.2 * received / total + (l.map fun e => e.2 * received / total).sum
        ≤ e.2 * received / total + (l.map Prod.snd).sum * received / total :=
          Nat.add_le_add_left ih _
      _ ≤ (e.2 * received + (l.map Prod.snd).sum * received) / total :=
          Nat.div_add_div_le_add_div
      _ = (e.2 + (l.map Prod.snd).sum) * received / total := by rw [Nat.add_mul]

/-- The pools of a week get at most what was received for it. -/
theorem sum_allocate_le (accrued : List (String × Nat)) (received : Nat) :
    ((allocate accrued received).map Prod.snd).sum ≤ received := by
  have hkeep : ∀ (f : Nat → Nat), (((accrued.filterMap fun e =>
      if e.2 = 0 then none else some (e.1, f e.2)).map Prod.snd).sum ≤
        (accrued.map fun e => f e.2).sum) := by
    intro f
    induction accrued with
    | nil => simp
    | cons e l ih =>
      simp only [List.filterMap_cons]
      split
      · next hnone => exact ih.trans (by simp)
      · next hsome =>
        split at hsome
        · cases hsome
        · cases hsome
          simpa using ih
  rw [allocate]
  set total := (accrued.map Prod.snd).sum with htotal
  by_cases hall : total ≤ received
  · simp only [hall, if_true]
    exact (hkeep id).trans hall
  · simp only [hall, if_false]
    calc _ ≤ (accrued.map fun e => e.2 * received / total).sum :=
          hkeep fun v => v * received / total
      _ ≤ total * received / total := sum_shares_le accrued received total
      _ = received := Nat.mul_div_cancel_left received (by omega)

/-- A week's strategies together are allocated at most what was received. -/
theorem sum_keyed_le (week : Week) (funded : List (String × Nat)) (ids : Finset String) :
    ∑ id ∈ ids, tally (week, id) (keyed week funded) ≤ (funded.map Prod.snd).sum := by
  have hkeys : ∑ id ∈ ids, tally (week, id) (keyed week funded) =
      ∑ key ∈ ids.map ⟨fun id => (week, id), fun _ _ h => (Prod.mk.inj h).2⟩,
        tally key (keyed week funded) := by
    rw [Finset.sum_map]
    rfl
  rw [hkeys]
  refine (sum_tally_le _ _).trans_eq ?_
  simp [keyed, Function.comp_def]

/-- What a fee earns a pool fits in 63 bits. -/
theorem accrued_lt {fees : List (String × D)} {e : String × Nat}
    (h : e ∈ accrued cfg.feeShare fees) : e.2 < 2 ^ 63 := by
  unfold accrued at h
  split at h
  · cases h
  · obtain ⟨⟨id, fee⟩, _, he⟩ := List.mem_filterMap.mp h
    dsimp only at he
    split at he
    · next hpos =>
      cases he
      have hpos : 0 < fee.toInt := Int64.lt_iff_toInt_lt.mp hpos
      have hlt := fee.toInt_lt
      have hmicros : collateralMicros fee = fee.toInt / 100 := rfl
      have hshare : collateralMicros fee * cfg.feeShare / 100 ≤ collateralMicros fee := by
        apply Int.ediv_le_of_le_mul (by decide)
        exact Int.mul_le_mul_of_nonneg_left (by exact_mod_cast cfg.feeShare_le) (by omega)
      show (collateralMicros fee * cfg.feeShare / 100).toNat < 2 ^ 63
      omega
    · cases he

/-- A strategy is allocated at most what it accrued. -/
theorem allocate_le {accrued : List (String × Nat)} {received : Nat} {e : String × Nat}
    (h : e ∈ allocate accrued received) : ∃ v, (e.1, v) ∈ accrued ∧ e.2 ≤ v := by
  obtain ⟨⟨id, v⟩, hv, he⟩ := List.mem_filterMap.mp h
  dsimp only at he
  split at he
  · cases he
  · cases he
    refine ⟨v, hv, ?_⟩
    dsimp only
    split
    · exact le_rfl
    · next hshort =>
      apply Nat.div_le_of_le_mul
      rw [Nat.mul_comm _ v]
      exact Nat.mul_le_mul_left v (not_le.mp hshort).le

/-- What a receipt allocates to a strategy fits in 63 bits, so a fund call carries it whole. -/
theorem Desk.Receipted.allocated_lt (h : d.Receipted cfg) (key : FundKey) :
    d.allocated key < 2 ^ 63 := by
  unfold Desk.allocated
  split
  · next r hr =>
    obtain ⟨amount, fees, hnodup, rfl⟩ := h _ _ hr
    by_contra hlarge
    have hpos : 0 < tally key (keyed key.1 (cfg.receipt amount fees).funded) := by omega
    obtain ⟨e, he, hkey, -⟩ := exists_mem_of_tally_pos hpos
    have hall := whole_keyed (receipt_keys_nodup hnodup cfg amount) he
    obtain ⟨f, hf, hfe⟩ := List.mem_map.mp he
    obtain ⟨v, hv, hle⟩ := allocate_le hf
    have hlt := accrued_lt hv
    have hamount : f.2 = e.2 := congrArg Prod.snd hfe
    rw [hkey] at hall
    omega
  · exact Nat.two_pow_pos 63

/-! ## On chain -/

/-- A fund transaction that is mined adds its amount to its slot's pool and to no other. -/
theorem Tx.mine_funds {tx : Tx} {amount : Nat} {timestamp : BitVec 256} {c : Contract.Chain τ}
    (hp : tx.payload = .fund key amount) (hm : (tx.mine cfg timestamp c).2.fate = .mined) :
    ((tx.mine cfg timestamp c).1.storage.pool (cfg.slot key)).toNat =
      (c.storage.pool (cfg.slot key)).toNat + amount % 2 ^ 256 ∧
    ∀ k, k ≠ cfg.slot key → (tx.mine cfg timestamp c).1.storage.pool k = c.storage.pool k := by
  rcases tx.mine_cases cfg timestamp c with ⟨events, hexec, _⟩ | ⟨_, hfate⟩
  · rw [hp] at hexec
    obtain ⟨-, -, -, total, htotal, hstorage, -⟩ := Contract.fund_spec hexec
    have hpool := congrArg Contract.Storage.pool hstorage
    dsimp only at hpool
    refine ⟨?_, fun k hk => ?_⟩
    · rw [hpool, PrizeConfig.slot, Function.update_self, ← htotal, BitVec.toNat_ofNat]
    · rw [hpool]
      exact Function.update_of_ne hk _ _
  · rw [hfate] at hm
    cases hm

/-! ## No pool is funded twice -/

/-- No fund transaction has been mined whose amount was put back. -/
def Desk.Once (d : Desk τ) : Prop := ∀ p ∈ d.past, p.retried = true → p.tx.funded = []

/-- A fund transaction the desk gives up on has not been mined, and is not mined later. -/
def NotMinedLate (cfg : PrizeConfig τ) (d : Desk τ) : DeskAction τ → Prop
  | .job j .giveUp => ∀ tx next, d.jobs[j]? = some (.awaiting tx next) → tx.funded = []
  | .mine n timestamp => ∀ p, d.past[n]? = some p → p.retried = true →
      (p.tx.mine cfg timestamp d.chain).2.funded = []
  | _ => True

theorem Desk.Once.step {a : DeskAction τ} (ho : d.Once) (hg : NotMinedLate cfg d a)
    (h : d.next cfg a = some d') : d'.Once := by
  cases Desk.became h with
  | advanced hjob hadv =>
    intro p hp hretried
    rcases (Desk.advance_moved hadv).past with hpast | ⟨tx, next, rfl, ⟨_, hpast⟩ | ⟨rfl, hpast⟩⟩
    · exact ho p (hpast ▸ hp) hretried
    · rcases List.mem_append.mp (hpast ▸ hp) with hp | hp
      · exact ho p hp hretried
      · rw [List.mem_singleton.mp hp] at hretried
        cases hretried
    · rcases List.mem_append.mp (hpast ▸ hp) with hp | hp
      · exact ho p hp hretried
      · rw [List.mem_singleton.mp hp]
        exact hg tx next hjob
  | mined hat _ =>
    intro q hq hretried
    rcases List.mem_or_eq_of_mem_set hq with hq | rfl
    · exact ho q hq hretried
    · exact hg _ hat hretried
  | restarted =>
    intro p hp hretried
    rcases List.mem_append.mp hp with hp | hp
    · exact ho p hp hretried
    · obtain ⟨tx, _, rfl⟩ := List.mem_map.mp hp
      cases hretried
  | _ => exact ho

theorem Tx.funded_sublist (tx : Tx) : tx.funded.Sublist tx.payload.entries := by
  unfold Tx.funded
  split
  · exact .refl _
  · exact List.nil_sublist _

theorem Job.funded_sublist (job : Job) : job.funded.Sublist job.entries := by
  induction job with
  | awaiting tx next ih => exact tx.funded_sublist.append ih
  | _ => exact List.nil_sublist _

/-- Where nothing was funded twice, what was funded is held. -/
theorem Desk.Once.funded_le (ho : d.Once) (key : FundKey) : d.funded key ≤ d.held key := by
  have hjobs := tally_sublist (k := key)
    (flatMap_sublist d.jobs fun job _ => job.funded_sublist)
  have hpast := tally_sublist (k := key) (flatMap_sublist d.past
    (f := fun p => p.tx.funded) (g := Past.entries) fun p hp => by
      unfold Past.entries
      split
      · next hretried => rw [ho p hp hretried]
      · exact p.tx.funded_sublist)
  rw [Desk.held_eq, Desk.funded]
  omega

/-- Whatever is retried, restarted or mined, a strategy's pool is funded with at most what the
week's receipt allocated to it and a week's pools with at most what was received, as long as no
fund transaction the desk gave up on is mined. -/
theorem funded_within_receipt {d₀ : Desk τ} {as : List (DeskAction τ)} (h0 : d₀.Fresh)
    (h : Run (DeskStep cfg) (NotMinedLate cfg) d₀ as d) :
    (∀ key, d.funded key ≤ d.allocated key) ∧ ∀ week r, d.receipts week = some r →
      ∀ ids : Finset String, ∑ id ∈ ids, d.funded (week, id) ≤ r.amount := by
  have hb : d.Bounded := h.invariant h0.bounded fun _ _ _ hb _ hs => hb.step hs
  have hr : d.Receipted cfg := h.invariant (fun week r hwk => by simp [h0.receipts] at hwk)
    fun _ _ _ hr _ hs => hr.step hs
  have ho : d.Once := h.invariant (fun p hp => by simp [h0.past] at hp)
    fun _ _ _ ho hg hs => ho.step hg hs
  have hle : ∀ key, d.funded key ≤ d.allocated key := fun key => (ho.funded_le key).trans (hb.le key)
  refine ⟨hle, fun week r hwk ids => ?_⟩
  obtain ⟨amount, fees, _, rfl⟩ := hr week r hwk
  calc ∑ id ∈ ids, d.funded (week, id)
      ≤ ∑ id ∈ ids, tally (week, id) (keyed week (cfg.receipt amount fees).funded) := by
        refine Finset.sum_le_sum fun id _ => (hle (week, id)).trans_eq ?_
        rw [Desk.allocated, hwk]
    _ ≤ ((cfg.receipt amount fees).funded.map Prod.snd).sum := sum_keyed_le _ _ _
    _ ≤ amount := sum_allocate_le _ _

/-! ## Runs of a desk -/

/-- The Keccak-256 hashes of the catalog's ids. -/
def keccakOfId (id : String) : Strategy :=
  if id = "direction" then 0xb15bcb4cd55f627372ab4c4a821dbf8833ea3fea61eecef2b39d7eee09f8092d
  else if id = "ma-cross" then 0x90c3b1799b818aa958037d36d72bcb7b85ec92f552ba81d68f83b11101bfca37
  else if id = "rsi" then 0x8d17ec0470c53d7b949d711d335b197101c9ed4536ca15bd8a176b16196dbaa0
  else if id = "donchian" then 0x007cf6683fc66ad0975d8ed685ba50e69bcf4436fc95f14a5c36f36ca3b6b535
  else if id = "orb" then 0x24724ee4262a299f5a9688e2fbc2a10ebcf5d2f3784ae745497cb764389a34a5
  else 0

/-- A desk that gives half of the builder fees back, over the test token. -/
def halfBack : PrizeConfig TestToken where
  token := TestToken.erc20
  contract := 1
  settler := 2
  strategyKey := keccakOfId
  feeShare := 50
  feeShare_le := by decide

/-- The desk on the first day of week two, with ten units to fund pools from. -/
def monday : Desk TestToken where
  chain :=
    ⟨Contract.deploy 2 2, (TestToken.empty.mint 2 10000000).approve 2 1 TestToken.unlimited⟩
  now := 2 * 604800
  receipts := fun _ => none
  due := []
  jobs := []
  past := []

theorem monday_fresh : monday.Fresh := ⟨fun _ => rfl, rfl, rfl, rfl, fun _ => rfl⟩

/-- Four units of fees for week one, all of them one strategy's, and the funding sent. -/
def weekOne : List (DeskAction TestToken) :=
  [.receive 1 4000000 [("rsi", 400000000)], .job 0 .enqueue,
    .job 0 (.take [((1, "rsi"), 2000000)]), .job 0 .send]

/-- The funding of week one is mined while the desk waits for it. -/
def weekOneFunded : List (DeskAction TestToken) := weekOne ++ [.job 0 (.mine 1500000)]

theorem funded_within_receipt_weekOne :
    ∃ d, Run (DeskStep halfBack) (NotMinedLate halfBack) monday weekOneFunded d ∧
      d.funded (1, "rsi") = 2000000 ∧ d.funded (1, "rsi") ≤ d.allocated (1, "rsi") := by
  obtain ⟨d, hd, hfunded⟩ := Option.map_eq_some_iff.mp (show
    (exec (Desk.next halfBack) monday weekOneFunded).map (·.funded (1, "rsi")) = some 2000000 by
      decide)
  have hrun : Run (DeskStep halfBack) (NotMinedLate halfBack) monday weekOneFunded d :=
    Run.of_exec hd (by simp [weekOneFunded, weekOne, NotMinedLate])
  exact ⟨d, hrun, hfunded, (funded_within_receipt monday_fresh hrun).1 _⟩

/-- The desk stops waiting for the funding of week one and sends it again; both are mined. -/
def weekOneTwice : List (DeskAction TestToken) :=
  weekOne ++ [.job 0 .giveUp, .flush, .job 1 (.take [((1, "rsi"), 2000000)]), .job 1 .send,
    .mine 0 1500000, .job 1 (.mine 1500000)]

/-- The pool then has twice what the week's receipt allocated to it. -/
theorem lateMined_funds_twice :
    ∃ d, Run (DeskStep halfBack) Always monday weekOneTwice d ∧
      d.allocated (1, "rsi") = 2000000 ∧ d.funded (1, "rsi") = 4000000 ∧
      d.chain.storage.pool (1, keccakOfId "rsi") = 4000000 := by
  obtain ⟨d, hd, hbooks⟩ := Option.map_eq_some_iff.mp (show
    (exec (Desk.next halfBack) monday weekOneTwice).map (fun d =>
      (d.allocated (1, "rsi"), d.funded (1, "rsi"),
        d.chain.storage.pool (1, keccakOfId "rsi"))) = some (2000000, 4000000, 4000000) by
      decide)
  simp only [Prod.mk.injEq] at hbooks
  exact ⟨d, Run.of_exec hd fun _ _ _ => trivial, hbooks⟩

/-! ## No allocation is forgotten -/

/-- Every allocation is somewhere, and what no call waits for has been funded or put back. -/
structure Desk.Remembered (d : Desk τ) : Prop where
  covered : ∀ key, d.allocated key ≤ d.held key
  awaited : ∀ p ∈ d.past, p.retried = false → ∀ key, tally key p.tx.unfunded = 0

/-- The process stops only while nothing is owed, and an insert that fails has not saved a
receipt that allocates something. -/
def Remembers (cfg : PrizeConfig τ) (d : Desk τ) : DeskAction τ → Prop
  | .restart => ∀ key, d.owed key = 0
  | .receiveLost _ amount fees => ∀ e ∈ (cfg.receipt amount fees).funded, e.2 = 0
  | _ => True

/-- A transaction either funded its amount or did not. -/
theorem Tx.tally_payload (tx : Tx) :
    tally key tx.payload.entries = tally key tx.unfunded + tally key tx.funded := by
  unfold Tx.unfunded Tx.funded
  split <;> simp

/-- A call either still owes an amount it carries or has funded it. -/
theorem Job.tally_entries (job : Job) :
    tally key job.entries = tally key job.owes + tally key job.funded := by
  induction job with
  | awaiting tx next ih =>
    simp only [Job.entries, Job.owes, Job.funded, tally_append, ih, tx.tally_payload]
    omega
  | _ => simp [Job.entries, Job.owes, Job.funded]

theorem tally_jobs (jobs : List Job) : tally key (jobs.flatMap Job.entries) =
    tally key (jobs.flatMap Job.owes) + tally key (jobs.flatMap Job.funded) := by
  induction jobs with
  | nil => rfl
  | cons job jobs ih =>
    simp only [List.flatMap_cons, tally_append, ih, job.tally_entries]
    omega

/-- What a call has funded is in a transaction it waits for. -/
theorem Job.funded_sublist_sent (job : Job) :
    job.funded.Sublist (job.sent.flatMap fun tx => tx.payload.entries) := by
  induction job with
  | awaiting tx next ih =>
    rw [Job.sent, List.flatMap_cons]
    exact tx.funded_sublist.append ih
  | _ => exact List.nil_sublist _

/-- A transaction a call waits for, and that was not mined, is owed. -/
theorem Job.unfunded_sublist {job : Job} {tx : Tx} (h : tx ∈ job.sent) :
    tx.unfunded.Sublist job.owes := by
  induction job with
  | awaiting tx' next ih =>
    rw [Job.sent] at h
    rcases List.mem_cons.mp h with rfl | h
    · exact List.sublist_append_left _ _
    · exact (ih h).trans (List.sublist_append_right _ _)
  | _ => simp [Job.sent] at h

theorem Desk.Remembered.step {a : DeskAction τ} (hm : d.Remembered) (hg : Remembers cfg d a)
    (h : d.next cfg a = some d') : d'.Remembered := by
  cases Desk.became h with
  | @received week amount fees _ _ =>
    refine ⟨fun key => ?_, hm.awaited⟩
    rw [Desk.allocated_saved (d := d) rfl, Desk.held_eq]
    simp only [List.flatMap_append, List.flatMap_singleton, tally_append, Job.entries]
    have := hm.covered key
    rw [Desk.held_eq] at this
    split <;> omega
  | @lost week amount fees _ _ =>
    refine ⟨fun key => ?_, hm.awaited⟩
    rw [Desk.allocated_saved (d := d) rfl]
    split
    · have hzero : tally key (keyed week (cfg.receipt amount fees).funded) = 0 := by
        refine List.sum_eq_zero fun x hx => ?_
        simp only [keyed, List.map_map, List.mem_map, Function.comp_apply] at hx
        obtain ⟨e, he, rfl⟩ := hx
        split
        · exact hg e he
        · rfl
      omega
    · exact hm.covered key
  | @began _ job hjob =>
    refine ⟨fun key => ?_, hm.awaited⟩
    have hheld : Desk.held { d with jobs := d.jobs ++ [job] } key = d.held key := by
      rcases hjob with rfl | ⟨_, _, rfl⟩ <;> simp [Desk.held, Desk.entries, Job.entries]
    exact (hm.covered key).trans_eq hheld.symm
  | @advanced j a job job' d₁ hjob hadv =>
    have hmoved := Desk.advance_moved hadv
    refine ⟨fun key => ?_, fun p hp hretried => ?_⟩
    · have hall : Desk.allocated { d₁ with jobs := d₁.jobs.set j job' } = d.allocated :=
        Desk.allocated_congr hmoved.receipts
      rw [Desk.held_advanced hjob hadv, hall]
      exact hm.covered key
    · rcases hmoved.past with hpast | ⟨tx, next, rfl, ⟨hmined, hpast⟩ | ⟨_, hpast⟩⟩
      · exact hm.awaited p (hpast ▸ hp) hretried
      · rcases List.mem_append.mp (hpast ▸ hp) with hp | hp
        · exact hm.awaited p hp hretried
        · rw [List.mem_singleton.mp hp]
          simp [Tx.unfunded, hmined]
      · rcases List.mem_append.mp (hpast ▸ hp) with hp | hp
        · exact hm.awaited p hp hretried
        · rw [List.mem_singleton.mp hp] at hretried
          cases hretried
  | @mined n timestamp p hp hpending =>
    refine ⟨fun key => ?_, fun q hq hretried key => ?_⟩
    · have := hm.covered key
      rw [Desk.held_eq] at this ⊢
      rwa [past_mined cfg timestamp hp]
    · rcases List.mem_or_eq_of_mem_set hq with hq | rfl
      · exact hm.awaited q hq hretried key
      · -- what was pending and not owed carries no amount
        have hnone := hm.awaited p (List.mem_of_getElem? hp) hretried key
        rw [Tx.unfunded, if_neg (by simp [hpending])] at hnone
        have hsplit : tally key p.tx.payload.entries =
            tally key (p.tx.mine cfg timestamp d.chain).2.unfunded +
              tally key (p.tx.mine cfg timestamp d.chain).2.funded := by
          rw [← Tx.tally_payload, Tx.mine_payload]
        show tally key (p.tx.mine cfg timestamp d.chain).2.unfunded = 0
        omega
  | restarted =>
    refine ⟨fun key => ?_, fun p hp hretried key => ?_⟩
    · have howed := hg key
      have hcovered := hm.covered key
      have hsent := tally_sublist (k := key)
        (flatMap_sublist d.jobs fun job _ => job.funded_sublist_sent)
      rw [Desk.held_eq, tally_jobs] at hcovered
      rw [Desk.owed] at howed
      rw [Desk.held_eq]
      simp only [List.flatMap_append, orphans_entries, tally_append, List.flatMap_nil, tally_nil,
        List.flatMap_assoc]
      exact hcovered.trans (by omega)
    · rcases List.mem_append.mp hp with hp | hp
      · exact hm.awaited p hp hretried key
      · obtain ⟨tx, htx, rfl⟩ := List.mem_map.mp hp
        obtain ⟨job, hjob, htx⟩ := List.mem_flatMap.mp htx
        have hone := tally_sublist (k := key) (Job.unfunded_sublist htx)
        have hall := le_tally_flatMap (k := key) Job.owes hjob
        have howed := hg key
        rw [Desk.owed] at howed
        show tally key tx.unfunded = 0
        omega
  | called _ _ => exact ⟨hm.covered, hm.awaited⟩
  | token => exact ⟨hm.covered, hm.awaited⟩
  | clock => exact ⟨hm.covered, hm.awaited⟩

/-- What is held is owed or funded. -/
theorem Desk.Remembered.held_le (hm : d.Remembered) (key : FundKey) :
    d.held key ≤ d.owed key + d.funded key := by
  have hpast : ∀ past : List Past, (∀ p ∈ past, p.retried = false → ∀ key,
      tally key p.tx.unfunded = 0) →
      tally key (past.flatMap Past.entries) ≤ tally key (past.flatMap fun p => p.tx.funded) := by
    intro past hawaited
    induction past with
    | nil => exact le_rfl
    | cons p past ih =>
      have htail := ih fun q hq => hawaited q (List.mem_cons_of_mem _ hq)
      have hhead : tally key p.entries ≤ tally key p.tx.funded := by
        unfold Past.entries
        split
        · exact Nat.zero_le _
        · next hretried =>
          have := hawaited p List.mem_cons_self (by simpa using hretried) key
          rw [p.tx.tally_payload]
          omega
      simp only [List.flatMap_cons, tally_append]
      omega
  have := hpast d.past hm.awaited
  rw [Desk.held_eq, tally_jobs, Desk.owed, Desk.funded]
  omega

/-- At every moment a saved receipt's allocation has been funded or is still owed, as long as
memory is lost only while nothing is owed. -/
theorem allocated_remembered {d₀ : Desk τ} {as : List (DeskAction τ)} (h0 : d₀.Fresh)
    (h : Run (DeskStep cfg) (Remembers cfg) d₀ as d) (key : FundKey) :
    d.allocated key ≤ d.funded key + d.owed key := by
  have hm : d.Remembered := by
    refine h.invariant ⟨fun key => ?_, fun p hp => ?_⟩ fun _ _ _ hm hg hs => hm.step hg hs
    · simp [Desk.allocated, h0.receipts]
    · simp [h0.past] at hp
  have := hm.covered key
  have := hm.held_le key
  omega

theorem allocated_remembered_weekOne :
    ∃ d, Run (DeskStep halfBack) (Remembers halfBack) monday weekOne d ∧
      d.owed (1, "rsi") = 2000000 ∧
      d.allocated (1, "rsi") ≤ d.funded (1, "rsi") + d.owed (1, "rsi") := by
  obtain ⟨d, hd, howed⟩ := Option.map_eq_some_iff.mp (show
    (exec (Desk.next halfBack) monday weekOne).map (·.owed (1, "rsi")) = some 2000000 by decide)
  have hrun : Run (DeskStep halfBack) (Remembers halfBack) monday weekOne d :=
    Run.of_exec hd (by simp [weekOne, Remembers])
  exact ⟨d, hrun, howed, allocated_remembered monday_fresh hrun _⟩

theorem Job.funded_eq (job : Job) : job.funded = job.sent.flatMap Tx.funded := by
  induction job with
  | awaiting tx next ih => rw [Job.funded, ih, Job.sent, List.flatMap_cons]
  | _ => rfl

/-- A stopped process forgets what it owed: what it had not funded by then stays unfunded. -/
theorem Desk.restart_forgets (h : d.next cfg .restart = some d') (key : FundKey) :
    d'.owed key = 0 ∧ d'.funded key = d.funded key ∧ d'.allocated key = d.allocated key := by
  cases h
  refine ⟨rfl, ?_, rfl⟩
  have hjobs : d.jobs.flatMap Job.funded =
      (d.jobs.flatMap Job.sent).flatMap fun tx => tx.funded := by
    rw [List.flatMap_assoc]
    exact List.flatMap_congr fun job _ => job.funded_eq
  rw [Desk.funded, Desk.funded, hjobs]
  simp only [List.flatMap_nil, tally_nil, List.flatMap_append, List.flatMap_map, tally_append]
  omega

/-- The process stops after the receipt of week one was saved: nothing is funded, nothing is owed
any more, and a second receipt is refused. -/
theorem restart_loses_funding :
    ∃ d, Run (DeskStep halfBack) Always monday
        [.receive 1 4000000 [("rsi", 400000000)], .job 0 .enqueue, .restart] d ∧
      d.allocated (1, "rsi") = 2000000 ∧ d.funded (1, "rsi") = 0 ∧ d.owed (1, "rsi") = 0 := by
  obtain ⟨d, hd, hbooks⟩ := Option.map_eq_some_iff.mp (show
    (exec (Desk.next halfBack) monday [.receive 1 4000000 [("rsi", 400000000)], .job 0 .enqueue,
      .restart]).map (fun d => (d.allocated (1, "rsi"), d.funded (1, "rsi"),
        d.owed (1, "rsi"))) = some (2000000, 0, 0) by decide)
  simp only [Prod.mk.injEq] at hbooks
  exact ⟨d, Run.of_exec hd fun _ _ _ => trivial, hbooks⟩

end SuperAgent.Platform
