import SuperAgent.Platform.Prize

/-!
# What the desk owes and what it has funded

Every amount a receipt allocates is in one place: owed in memory, carried by a
call, or in a transaction whose amount was not put back. The desk's steps move
it from place to place. What breaks the books is an amount put back whose
transaction is mined all the same, and memory lost while something is owed.
-/

namespace SuperAgent.Platform

open Contract (Week Strategy Address Amount)
open Fixed (D)

/-! ## Where the amounts are -/

/-- What a transaction would fund. -/
def Payload.entries : Payload → List (FundKey × Nat)
  | .fund key amount => [(key, amount)]
  | .settle _ => []

/-- What a transaction has funded. -/
def Tx.funded (tx : Tx) : List (FundKey × Nat) :=
  if tx.fate = .mined then tx.payload.entries else []

/-- What a transaction nobody has seen mined would fund. -/
def Tx.unfunded (tx : Tx) : List (FundKey × Nat) :=
  if tx.fate = .mined then [] else tx.payload.entries

/-- A week's allocations with the keys they are owed under. -/
def keyed (week : Week) (funded : List (String × Nat)) : List (FundKey × Nat) :=
  funded.map fun e => ((week, e.1), e.2)

/-- The amounts a call carries. -/
def Job.entries : Job → List (FundKey × Nat)
  | .receiving week funded => keyed week funded
  | .flushing batch _ => batch
  | .awaiting tx next => tx.payload.entries ++ next.entries
  | _ => []

/-- The amounts a call still has to bring to a pool. -/
def Job.owes : Job → List (FundKey × Nat)
  | .receiving week funded => keyed week funded
  | .flushing batch _ => batch
  | .awaiting tx next => tx.unfunded ++ next.owes
  | _ => []

/-- The amounts a call has brought to a pool without having seen it. -/
def Job.funded : Job → List (FundKey × Nat)
  | .awaiting tx next => tx.funded ++ next.funded
  | _ => []

/-- The amount of a past transaction, unless it was put back. -/
def Past.entries (p : Past) : List (FundKey × Nat) := if p.retried then [] else p.tx.payload.entries

/-- What a past transaction funded, unless its amount was put back. -/
def Past.credited (p : Past) : List (FundKey × Nat) := if p.retried then [] else p.tx.funded

variable {τ : Type}

/-- What a week's receipt allocated to a strategy. -/
def Desk.allocated (d : Desk τ) (key : FundKey) : Nat :=
  match d.receipts key.1 with
  | some r => tally key (keyed key.1 r.funded)
  | none => 0

/-- What the desk's fund transactions have added on chain. -/
def Desk.funded (d : Desk τ) (key : FundKey) : Nat :=
  tally key (d.jobs.flatMap Job.funded) + tally key (d.past.flatMap fun p => p.tx.funded)

/-- What the desk still owes and will send, or is waiting for. -/
def Desk.owed (d : Desk τ) (key : FundKey) : Nat :=
  tally key d.due + tally key (d.jobs.flatMap Job.owes)

/-- What was funded by transactions the desk has not given up on. -/
def Desk.credited (d : Desk τ) (key : FundKey) : Nat :=
  tally key (d.jobs.flatMap Job.funded) + tally key (d.past.flatMap Past.credited)

/-- The places an amount can be in. -/
def Desk.entries (d : Desk τ) : List (FundKey × Nat) :=
  d.due ++ d.jobs.flatMap Job.entries ++ d.past.flatMap Past.entries

/-- What the places hold. -/
def Desk.held (d : Desk τ) (key : FundKey) : Nat := tally key d.entries

/-! ## What a call's step moves -/

variable {cfg : PrizeConfig τ} {d d' : Desk τ} {job job' : Job} {key : FundKey}

theorem keyed_cons (week : Week) (e : String × Nat) (funded : List (String × Nat)) :
    keyed week (e :: funded) = ((week, e.1), e.2) :: keyed week funded := rfl

theorem tally_owe (week : Week) (funded : List (String × Nat)) (due : List (FundKey × Nat)) :
    tally key (owe week funded due) = tally key due + tally key (keyed week funded) := by
  induction funded generalizing due with
  | nil => simp [owe, keyed]
  | cons e funded ih =>
    rw [owe, ih, keyed_cons, tally_cons]
    split
    · next hz => simp [hz]
    · simp only [tally_bump]
      omega

theorem whole_owe {w : FundKey → Nat} {week : Week} {funded : List (String × Nat)}
    {due : List (FundKey × Nat)} (hdue : Whole w due) (hfunded : Whole w (keyed week funded))
    (hle : ∀ key, tally key due + tally key (keyed week funded) ≤ w key) :
    Whole w (owe week funded due) := by
  induction funded generalizing due with
  | nil => exact hdue
  | cons e funded ih =>
    have hhead := hfunded ((week, e.1), e.2) (by simp [keyed])
    have htail : Whole w (keyed week funded) := fun f hf => hfunded f (List.mem_cons_of_mem _ hf)
    simp only [keyed_cons, tally_cons] at hle
    rw [Platform.owe]
    split
    · refine ih hdue htail fun key => ?_
      have := hle key
      omega
    · have hself := hle (week, e.1)
      rw [if_pos rfl] at hself
      refine ih (hdue.bump hhead (by omega)) htail fun key => ?_
      have := hle key
      rw [tally_bump]
      omega

theorem tally_putBack (p : Payload) (due : List (FundKey × Nat)) :
    tally key (p.putBack due) = tally key due + tally key p.entries := by
  cases p with
  | fund k a => simp [Payload.putBack, Payload.entries, tally_bump]
  | settle _ => simp [Payload.putBack, Payload.entries]

theorem whole_putBack {w : FundKey → Nat} {p : Payload} {due : List (FundKey × Nat)}
    (hdue : Whole w due) (hp : Whole w p.entries)
    (hle : ∀ key, tally key due + tally key p.entries ≤ w key) : Whole w (p.putBack due) := by
  cases p with
  | fund k a =>
    have hself := hle k
    simp only [Payload.entries, tally_cons, if_true, tally_nil, Nat.add_zero] at hself
    exact hdue.bump (hp (k, a) (by simp [Payload.entries])) hself
  | settle _ => exact hdue

/-- A mined transaction is an accepted call; a reverted one leaves the chain alone. -/
theorem Tx.mine_cases (cfg : PrizeConfig τ) (timestamp : BitVec 256) (tx : Tx)
    (c : Contract.Chain τ) :
    (∃ events, Contract.Call.exec cfg.token cfg.contract
        ⟨⟨cfg.settler, timestamp⟩, tx.payload.op cfg⟩ c =
          .ok ((tx.mine cfg timestamp c).1, events) ∧
        (tx.mine cfg timestamp c).2 = { tx with fate := .mined }) ∨
      (tx.mine cfg timestamp c).1 = c ∧
        (tx.mine cfg timestamp c).2 = { tx with fate := .reverted } := by
  unfold Tx.mine
  split
  · next events hexec => exact .inl ⟨events, hexec, rfl⟩
  · exact .inr ⟨rfl, rfl⟩

@[simp] theorem Tx.mine_payload (cfg : PrizeConfig τ) (timestamp : BitVec 256) (tx : Tx)
    (c : Contract.Chain τ) : (tx.mine cfg timestamp c).2.payload = tx.payload := by
  rcases tx.mine_cases cfg timestamp c with ⟨_, _, h⟩ | ⟨_, h⟩ <;> rw [h]

/-- What one step of a call leaves as it was, and where it moves the call's amounts. -/
structure Moved (d : Desk τ) (job : Job) (a : JobAction) (d' : Desk τ) (job' : Job) : Prop where
  receipts : d'.receipts = d.receipts
  jobs : d'.jobs = d.jobs
  kept : ∀ key, tally key d'.due + tally key job'.entries + tally key (d'.past.flatMap Past.entries)
    = tally key d.due + tally key job.entries + tally key (d.past.flatMap Past.entries)
  whole : ∀ w : FundKey → Nat, (∀ key, tally key d.due + tally key job.entries ≤ w key) →
    Whole w d.due → Whole w job.entries → Whole w (d.past.flatMap Past.entries) →
    Whole w d'.due ∧ Whole w job'.entries ∧ Whole w (d'.past.flatMap Past.entries)
  past : d'.past = d.past ∨ ∃ tx next, job = .awaiting tx next ∧
    (tx.fate = .mined ∧ d'.past = d.past ++ [⟨tx, false⟩] ∨
      a = .giveUp ∧ d'.past = d.past ++ [⟨tx, true⟩])

/-- A step that leaves the desk's books alone. -/
theorem Moved.still {a : JobAction} (hr : d'.receipts = d.receipts) (hj : d'.jobs = d.jobs)
    (hd : d'.due = d.due) (hp : d'.past = d.past) (he : job'.entries = job.entries) :
    Moved d job a d' job' where
  receipts := hr
  jobs := hj
  kept key := by rw [hd, hp, he]
  whole w _ h₁ h₂ h₃ := by
    rw [hd, hp, he]
    exact ⟨h₁, h₂, h₃⟩
  past := .inl hp

theorem Desk.advance_moved {a : JobAction} (h : d.advance cfg job a = some (d', job')) :
    Moved d job a d' job' := by
  unfold Desk.advance at h
  split at h
  · next week funded =>
    cases h
    refine ⟨rfl, rfl, fun key => ?_, fun w hle hdue hjob hpast => ⟨?_, ?_, hpast⟩, .inl rfl⟩
    · simp [tally_owe, Job.entries]
    · exact whole_owe hdue hjob hle
    · simp [Whole, Job.entries]
  · next after batch =>
    split at h
    · next hperm =>
      cases h
      refine ⟨rfl, rfl, fun key => ?_, fun w hle hdue hjob hpast => ⟨?_, ?_, hpast⟩, .inl rfl⟩
      · simp [Job.entries, tally_perm hperm]
      · simp [Whole]
      · exact fun e he => hdue e (hperm.mem_iff.mp he)
    · cases h
  · next e batch after =>
    cases h
    refine ⟨rfl, rfl, fun key => ?_, fun w hle hdue hjob hpast => ⟨?_, ?_, hpast⟩, .inl rfl⟩
    · simp only [tally_bump, Job.entries, tally_cons]
      omega
    · have hself := hle e.1
      simp only [Job.entries, tally_cons, if_true] at hself
      exact hdue.bump (hjob e (by simp [Job.entries])) (by omega)
    · exact fun f hf => hjob f (List.mem_cons_of_mem _ hf)
  · cases h
    exact .still rfl rfl rfl rfl rfl
  · cases h
    exact .still rfl rfl rfl rfl rfl
  · cases h
    exact .still rfl rfl rfl rfl rfl
  · cases h
    exact .still rfl rfl rfl rfl rfl
  · cases h
    exact .still rfl rfl rfl rfl rfl
  · split at h
    · cases h
    · cases h
      exact .still rfl rfl rfl rfl rfl
  · cases h
    exact .still rfl rfl rfl rfl rfl
  · split at h
    · cases h
    · cases h
      exact .still rfl rfl rfl rfl rfl
  · cases h
    exact .still rfl rfl rfl rfl rfl
  · cases h
    exact .still rfl rfl rfl rfl rfl
  · split at h
    · cases h
      exact .still rfl rfl rfl rfl (by simp [Job.entries])
    · cases h
  · next tx rest =>
    split at h
    · next hmined =>
      cases h
      refine ⟨rfl, rfl, fun key => ?_, fun w hle hdue hjob hpast => ⟨hdue, ?_, ?_⟩,
        .inr ⟨tx, _, rfl, .inl ⟨hmined, rfl⟩⟩⟩
      · simp only [Job.entries, List.flatMap_append, List.flatMap_singleton, tally_append,
          Past.entries, Bool.false_eq_true, if_false]
        omega
      · exact (whole_append.mp hjob).2
      · simpa [Past.entries, whole_append, hpast] using (whole_append.mp hjob).1
    · cases h
  · next tx rest =>
    cases h
    refine ⟨rfl, rfl, fun key => ?_, fun w hle hdue hjob hpast => ⟨?_, ?_, ?_⟩,
      .inr ⟨tx, _, rfl, .inr ⟨rfl, rfl⟩⟩⟩
    · simp only [Job.entries, List.flatMap_append, List.flatMap_singleton, tally_append,
        tally_putBack, Past.entries, if_true, tally_nil]
      omega
    · refine whole_putBack hdue (whole_append.mp hjob).1 fun key => ?_
      have := hle key
      simp only [Job.entries, tally_append] at this
      omega
    · exact (whole_append.mp hjob).2
    · simpa [Past.entries, whole_append, Whole] using hpast
  · cases h

/-! ## What a step of the desk is -/

/-- The ways the desk can change. -/
inductive Became (cfg : PrizeConfig τ) (d : Desk τ) : DeskAction τ → Desk τ → Prop
  | received {week : Week} {amount : Nat} {fees : List (String × D)} :
      (fees.map Prod.fst).Nodup → d.receipts week = none →
      Became cfg d (.receive week amount fees) { d with
        receipts := Function.update d.receipts week (some (cfg.receipt amount fees))
        jobs := d.jobs ++ [.receiving week (cfg.receipt amount fees).funded] }
  | lost {week : Week} {amount : Nat} {fees : List (String × D)} :
      (fees.map Prod.fst).Nodup → d.receipts week = none →
      Became cfg d (.receiveLost week amount fees) { d with
        receipts := Function.update d.receipts week (some (cfg.receipt amount fees)) }
  | began {a : DeskAction τ} {job : Job} :
      (job = .flush none ∨ ∃ week ids, job = .settling week ids) →
      Became cfg d a { d with jobs := d.jobs ++ [job] }
  | advanced {j : Nat} {a : JobAction} {job job' : Job} {d₁ : Desk τ} : d.jobs[j]? = some job →
      d.advance cfg job a = some (d₁, job') →
      Became cfg d (.job j a) { d₁ with jobs := d₁.jobs.set j job' }
  | mined {n : Nat} {timestamp : BitVec 256} {p : Past} : d.past[n]? = some p →
      p.tx.fate = .pending →
      Became cfg d (.mine n timestamp) { d with
        chain := (p.tx.mine cfg timestamp d.chain).1
        past := d.past.set n ⟨(p.tx.mine cfg timestamp d.chain).2, p.retried⟩ }
  | restarted : Became cfg d .restart { d with
        due := []
        jobs := []
        past := d.past ++ (d.jobs.flatMap Job.sent).map fun tx => ⟨tx, false⟩ }
  | called {c : Contract.Call} {chain : Contract.Chain τ} {events : List Contract.Event} :
      settles c.op = false →
      c.exec cfg.token cfg.contract d.chain = .ok (chain, events) →
      Became cfg d (.call c) { d with chain }
  | token {t : τ} : Became cfg d (.token t) { d with chain := { d.chain with token := t } }
  | clock {now : Int} : Became cfg d (.clock now) { d with now }

theorem Desk.saveReceipt_eq {week : Week} {r : PrizeReceipt}
    (h : (d.saveReceipt week r).toOption = some d') : d.receipts week = none ∧
      d' = { d with receipts := Function.update d.receipts week (some r) } := by
  have hok := toOption_eq_some.mp h
  simp only [Desk.saveReceipt, bind_eq_ok, revertIf_eq_ok] at hok
  obtain ⟨_, _, _, hnone, hd⟩ := hok
  cases hd
  exact ⟨by simpa using hnone, rfl⟩

theorem Desk.became {a : DeskAction τ} (h : d.next cfg a = some d') : Became cfg d a d' := by
  cases a with
  | receive week amount fees =>
    simp only [Desk.next] at h
    split at h
    · next hnodup =>
      obtain ⟨d₁, hsaved, rfl⟩ := Option.map_eq_some_iff.mp h
      obtain ⟨hnone, rfl⟩ := Desk.saveReceipt_eq hsaved
      exact .received hnodup hnone
    · cases h
  | receiveLost week amount fees =>
    simp only [Desk.next] at h
    split at h
    · next hnodup =>
      obtain ⟨hnone, rfl⟩ := Desk.saveReceipt_eq h
      exact .lost hnodup hnone
    · cases h
  | flush =>
    cases h
    exact .began (.inl rfl)
  | settleDue =>
    cases h
    exact .began (.inr ⟨_, _, rfl⟩)
  | job j a =>
    obtain ⟨job, hjob, h⟩ := Option.bind_eq_some_iff.mp h
    obtain ⟨⟨d₁, job'⟩, hadv, rfl⟩ := Option.map_eq_some_iff.mp h
    exact .advanced hjob hadv
  | mine n timestamp =>
    obtain ⟨p, hp, h⟩ := Option.bind_eq_some_iff.mp h
    split at h
    · next hpending =>
      cases h
      exact .mined hp hpending
    · cases h
  | restart =>
    cases h
    exact .restarted
  | call c =>
    simp only [Desk.next] at h
    split at h
    · next hcall =>
      obtain ⟨⟨chain, events⟩, hexec, rfl⟩ := Option.map_eq_some_iff.mp h
      exact .called hcall.2 (toOption_eq_some.mp hexec)
    · cases h
  | token t =>
    cases h
    exact .token
  | clock now =>
    cases h
    exact .clock

/-! ## No amount is in two places -/

/-- Nothing is held beyond what receipts allocated, and no allocation is divided. -/
structure Desk.Bounded (d : Desk τ) : Prop where
  le : ∀ key, d.held key ≤ d.allocated key
  whole : Whole d.allocated d.entries

theorem Desk.held_eq (d : Desk τ) (key : FundKey) : d.held key = tally key d.due +
    tally key (d.jobs.flatMap Job.entries) + tally key (d.past.flatMap Past.entries) := by
  simp only [Desk.held, Desk.entries, tally_append]

/-- Saving a week's receipt allocates for that week only. -/
theorem Desk.allocated_saved {week : Week} {r : PrizeReceipt}
    (h : d'.receipts = Function.update d.receipts week (some r)) (key : FundKey) :
    d'.allocated key = if key.1 = week then tally key (keyed week r.funded)
      else d.allocated key := by
  by_cases hweek : key.1 = week
  · rw [if_pos hweek, Desk.allocated, h, hweek, Function.update_self]
  · rw [if_neg hweek, Desk.allocated, h, Function.update_of_ne hweek, Desk.allocated]

/-- What is allocated is read off the journal. -/
theorem Desk.allocated_congr (h : d'.receipts = d.receipts) : d'.allocated = d.allocated := by
  funext key
  simp [Desk.allocated, h]

theorem Desk.allocated_eq_zero {week : Week} (h : d.receipts week = none) (id : String) :
    d.allocated (week, id) = 0 := by
  simp [Desk.allocated, h]

theorem tally_keyed_ne {week : Week} (h : key.1 ≠ week) (funded : List (String × Nat)) :
    tally key (keyed week funded) = 0 := by
  refine List.sum_eq_zero fun x hx => ?_
  simp only [keyed, List.map_map, List.mem_map, Function.comp_apply] at hx
  obtain ⟨e, -, rfl⟩ := hx
  exact if_neg fun heq : (week, e.1) = key => h (congrArg Prod.fst heq).symm

/-- The keys a filtered map leaves are some of those it had. -/
theorem keys_filterMap {α β : Type} {f : String × α → Option (String × β)}
    (hf : ∀ e g, f e = some g → g.1 = e.1) (l : List (String × α)) :
    ((l.filterMap f).map Prod.fst).Sublist (l.map Prod.fst) := by
  induction l with
  | nil => simp
  | cons e l ih =>
    cases he : f e with
    | none => simpa [he] using ih.trans (List.sublist_cons_self _ _)
    | some g => simpa [he, hf e g he] using ih

/-- A receipt allocates to each strategy once. -/
theorem receipt_keys_nodup {fees : List (String × D)} (h : (fees.map Prod.fst).Nodup)
    (cfg : PrizeConfig τ) (amount : Nat) :
    ((cfg.receipt amount fees).funded.map Prod.fst).Nodup := by
  have haccrued : ((accrued cfg.feeShare fees).map Prod.fst).Sublist (fees.map Prod.fst) := by
    unfold accrued
    split
    · simp
    · refine keys_filterMap (fun e g hg => ?_) fees
      dsimp only at hg
      split at hg
      · cases hg
        rfl
      · cases hg
  have hallocated : ((cfg.receipt amount fees).funded.map Prod.fst).Sublist
      ((accrued cfg.feeShare fees).map Prod.fst) := by
    refine keys_filterMap (fun e g hg => ?_) _
    dsimp only at hg
    split at hg
    · cases hg
    · cases hg
      rfl
  exact (h.sublist haccrued).sublist hallocated

/-- Allocations of a receipt are whole. -/
theorem whole_keyed {week : Week} {funded : List (String × Nat)}
    (h : (funded.map Prod.fst).Nodup) {e : FundKey × Nat} (he : e ∈ keyed week funded) :
    e.2 = tally e.1 (keyed week funded) := by
  refine (tally_of_nodup ?_ he).symm
  have hkeys : (keyed week funded).map Prod.fst = (funded.map Prod.fst).map fun id => (week, id) := by
    simp [keyed]
  rw [hkeys]
  exact h.map fun _ _ hid => (Prod.mk.inj hid).2

/-- Before its receipt nothing is held for a week. -/
theorem Desk.Bounded.held_eq_zero (h : d.Bounded) {week : Week} (hnone : d.receipts week = none)
    (hkey : key.1 = week) : d.held key = 0 := by
  have hle := h.le key
  rw [← Prod.mk.eta (p := key), hkey, Desk.allocated_eq_zero hnone] at hle
  rw [← Prod.mk.eta (p := key), hkey]
  omega

/-- Entries from before a week's receipt stay whole under it. -/
theorem Desk.Bounded.whole_saved (h : d.Bounded) {week : Week} {r : PrizeReceipt}
    (hnone : d.receipts week = none)
    (hr : d'.receipts = Function.update d.receipts week (some r)) :
    Whole d'.allocated d.entries := by
  intro e he
  rw [Desk.allocated_saved hr]
  split
  · next hweek =>
    have hzero : tally e.1 d.entries = 0 := h.held_eq_zero hnone hweek
    have hle : e.2 ≤ tally e.1 d.entries := le_tally_of_mem he
    exact .inl (by omega)
  · exact h.whole e he

/-- What a stopped process leaves of a call's amounts. -/
theorem Job.sent_sublist (job : Job) :
    (job.sent.flatMap fun tx => tx.payload.entries).Sublist job.entries := by
  induction job with
  | awaiting tx next ih =>
    rw [Job.sent, List.flatMap_cons, Job.entries]
    exact ih.append_left _
  | _ => simp [Job.sent]

theorem sent_sublist (jobs : List Job) :
    ((jobs.flatMap Job.sent).flatMap fun tx => tx.payload.entries).Sublist
      (jobs.flatMap Job.entries) := by
  rw [List.flatMap_assoc]
  exact flatMap_sublist jobs fun job _ => job.sent_sublist

/-- The entries of transactions that lost their process. -/
theorem orphans_entries (txs : List Tx) :
    (txs.map fun tx => (⟨tx, false⟩ : Past)).flatMap Past.entries =
      txs.flatMap fun tx => tx.payload.entries := by
  simp [List.flatMap_map, Past.entries]

/-- A call's step keeps the desk's books: what is held stays what it was. -/
theorem Desk.held_advanced {j : Nat} {a : JobAction} {job job' : Job} {d₁ : Desk τ}
    (hjob : d.jobs[j]? = some job) (h : d.advance cfg job a = some (d₁, job')) (key : FundKey) :
    Desk.held { d₁ with jobs := d₁.jobs.set j job' } key = d.held key := by
  have hm := Desk.advance_moved h
  have hkept := hm.kept key
  have hset := tally_flatMap_set (k := key) job' Job.entries hjob
  rw [Desk.held_eq, Desk.held_eq, hm.jobs]
  dsimp only
  omega

theorem Desk.Bounded.advanced (hb : d.Bounded) {j : Nat} {a : JobAction} {job job' : Job}
    {d₁ : Desk τ} (hjob : d.jobs[j]? = some job) (h : d.advance cfg job a = some (d₁, job')) :
    Desk.Bounded { d₁ with jobs := d₁.jobs.set j job' } := by
  have hm := Desk.advance_moved h
  have hall : Desk.allocated { d₁ with jobs := d₁.jobs.set j job' } = d.allocated :=
    Desk.allocated_congr hm.receipts
  refine ⟨fun key => ?_, ?_⟩
  · rw [Desk.held_advanced hjob h, hall]
    exact hb.le key
  · have hmem : job ∈ d.jobs := List.mem_of_getElem? hjob
    obtain ⟨hwhole, hpast⟩ := whole_append.mp hb.whole
    obtain ⟨hdue, hjobs⟩ := whole_append.mp hwhole
    have hone : Whole d.allocated job.entries :=
      fun e he => hjobs e (List.mem_flatMap.mpr ⟨job, hmem, he⟩)
    have hle : ∀ key, tally key d.due + tally key job.entries ≤ d.allocated key := by
      intro key
      have hset := tally_flatMap_set (k := key) (.done) Job.entries hjob
      have := hb.le key
      rw [Desk.held_eq] at this
      simp only [Job.entries, tally_nil] at hset
      omega
    obtain ⟨hdue', hone', hpast'⟩ := hm.whole d.allocated hle hdue hone hpast
    rw [hall, Desk.entries, hm.jobs]
    refine whole_append.mpr ⟨whole_append.mpr ⟨hdue', fun e he => ?_⟩, hpast'⟩
    obtain ⟨job₁, hjob₁, he₁⟩ := List.mem_flatMap.mp he
    rcases List.mem_or_eq_of_mem_set hjob₁ with hjob₁ | rfl
    · exact hjobs e (List.mem_flatMap.mpr ⟨job₁, hjob₁, he₁⟩)
    · exact hone' e he₁

/-- What moves nothing between the books, such as the chain or the clock. -/
theorem Desk.Bounded.aside (hb : d.Bounded) (hr : d'.receipts = d.receipts)
    (he : ∀ key, tally key d'.entries ≤ tally key d.entries)
    (hs : ∀ e ∈ d'.entries, e ∈ d.entries) : d'.Bounded := by
  have hall := Desk.allocated_congr hr
  refine ⟨fun key => ?_, fun e hmem => ?_⟩
  · rw [hall]
    exact (he key).trans (hb.le key)
  · rw [hall]
    exact hb.whole e (hs e hmem)

/-- Mining a transaction nobody waits for moves no amount. -/
theorem past_mined (cfg : PrizeConfig τ) (timestamp : BitVec 256) {past : List Past} {n : Nat}
    {p : Past} (hp : past[n]? = some p) (c : Contract.Chain τ) :
    (past.set n ⟨(p.tx.mine cfg timestamp c).2, p.retried⟩).flatMap Past.entries =
      past.flatMap Past.entries := by
  apply flatMap_set Past.entries hp
  simp only [Past.entries, Tx.mine_payload]

theorem Desk.Bounded.step {a : DeskAction τ} (hb : d.Bounded) (h : d.next cfg a = some d') :
    d'.Bounded := by
  cases Desk.became h with
  | @received week amount fees hnodup hnone =>
    have hsaved : ∀ key, Desk.allocated { d with
        receipts := Function.update d.receipts week (some (cfg.receipt amount fees))
        jobs := d.jobs ++ [.receiving week (cfg.receipt amount fees).funded] } key =
        if key.1 = week then tally key (keyed week (cfg.receipt amount fees).funded)
        else d.allocated key := Desk.allocated_saved rfl
    refine ⟨fun key => ?_, ?_⟩
    · rw [hsaved, Desk.held_eq]
      simp only [List.flatMap_append, List.flatMap_singleton, tally_append, Job.entries]
      split
      · next hweek =>
        have := hb.held_eq_zero hnone hweek
        rw [Desk.held_eq] at this
        omega
      · next hweek =>
        have := hb.le key
        rw [Desk.held_eq] at this
        rw [tally_keyed_ne hweek]
        omega
    · intro e he
      simp only [Desk.entries, List.flatMap_append, List.flatMap_singleton, List.mem_append,
        Job.entries] at he
      have hold : e ∈ d.entries ∨ e ∈ keyed week (cfg.receipt amount fees).funded := by
        simp only [Desk.entries, List.mem_append]
        tauto
      rcases hold with hold | hnew
      · exact hb.whole_saved hnone rfl e hold
      · right
        have hweek : e.1.1 = week := by
          obtain ⟨f, -, rfl⟩ := List.mem_map.mp hnew
          rfl
        rw [hsaved, if_pos hweek]
        exact whole_keyed (receipt_keys_nodup hnodup cfg amount) hnew
  | @lost week amount fees hnodup hnone =>
    refine ⟨fun key => ?_, hb.whole_saved hnone rfl⟩
    rw [Desk.allocated_saved (d := d) rfl]
    split
    · next hweek => exact (hb.held_eq_zero hnone hweek).trans_le (Nat.zero_le _)
    · exact hb.le key
  | began hjob =>
    refine hb.aside rfl (fun key => ?_) fun e he => ?_
    · rcases hjob with rfl | ⟨_, _, rfl⟩ <;> simp [Desk.entries, Job.entries]
    · rcases hjob with rfl | ⟨_, _, rfl⟩ <;> simpa [Desk.entries, Job.entries] using he
  | advanced hjob hadv => exact hb.advanced hjob hadv
  | @mined n timestamp p hp _ =>
    have he := past_mined cfg timestamp hp d.chain
    refine hb.aside rfl (fun key => ?_) fun e => ?_ <;> simp [Desk.entries, he]
  | restarted =>
    have hsub : ((d.past ++ (d.jobs.flatMap Job.sent).map fun tx => (⟨tx, false⟩ : Past)).flatMap
        Past.entries).Sublist (d.past.flatMap Past.entries ++ d.jobs.flatMap Job.entries) := by
      rw [List.flatMap_append, orphans_entries]
      exact (sent_sublist d.jobs).append_left _
    refine hb.aside rfl (fun key => ?_) fun e he => ?_
    · have := tally_sublist (k := key) hsub
      simp only [Desk.entries, List.flatMap_nil, List.nil_append, tally_append] at this ⊢
      omega
    · have := hsub.subset he
      simp only [Desk.entries, List.mem_append] at this ⊢
      tauto
  | called _ _ => exact hb.aside rfl (fun _ => le_rfl) fun _ he => he
  | token => exact hb.aside rfl (fun _ => le_rfl) fun _ he => he
  | clock => exact hb.aside rfl (fun _ => le_rfl) fun _ he => he

/-- A desk that has done nothing yet, over a contract with no settlement. -/
structure Desk.Fresh (d : Desk τ) : Prop where
  receipts : ∀ week, d.receipts week = none
  due : d.due = []
  jobs : d.jobs = []
  past : d.past = []
  unsettled : ∀ k, d.chain.storage.settled k = false

theorem Desk.Fresh.entries (h : d.Fresh) : d.entries = [] := by
  simp [Desk.entries, h.due, h.jobs, h.past]

theorem Desk.Fresh.bounded (h : d.Fresh) : d.Bounded where
  le key := by simp [Desk.held, h.entries]
  whole := by simp [h.entries, Whole]

/-- The steps of the desk. -/
def DeskStep (cfg : PrizeConfig τ) (d : Desk τ) (a : DeskAction τ) (d' : Desk τ) : Prop :=
  d.next cfg a = some d'

end SuperAgent.Platform
