import Mathlib.Data.List.Infix
import Mathlib.Data.List.Sort
import Mathlib.Data.String.Basic
import SuperAgent.Core.Run

/-!
# Migrations of the database

Every process brings the database up to its own build before it serves: it
goes through its migrations by name, and runs those that are not in the table
of the applied ones, each in a transaction with its entry in that table.
Several processes may do so at once, and any of them may stop anywhere. As
long as builds only add migrations after those of earlier builds, each one is
run once, on what the ones before it have made.
-/

namespace SuperAgent.Store

variable {σ : Type*}

/-- What the migrations work on, and the names of those applied, the latest last. -/
structure Database (σ : Type*) where
  schema : σ
  applied : List String

/-- Where a process is in its migrations. A transaction holds what it has made of the database. -/
inductive Stage (σ : Type*)
  | checking (rest : List String)
  | applying (name : String) (rest : List String)
  | committing (name : String) (rest : List String) (made : σ)
  | served
  | ended

/-- A process, with the migrations of its build in the order of their names. -/
structure Starter (σ : Type*) where
  build : List String
  stage : Stage σ

/-- The database and all processes there ever were. -/
structure Fleet (σ : Type*) where
  db : Database σ
  procs : List (Starter σ)

/-- What became of a commit. A lost one was made, and reported as failed. -/
inductive Committed
  | done
  | refused
  | lost
  deriving DecidableEq

/-- What can happen. A process is named by its place among all of them. -/
inductive StartAction
  | start (files : List String)
  | look (i : ℕ)
  | apply (i : ℕ)
  | commit (i : ℕ) (c : Committed)
  | stop (i : ℕ)
  deriving DecidableEq

/-- What a process looks at next. -/
def Database.look (db : Database σ) : List String → Stage σ
  | [] => .served
  | name :: rest => if name ∈ db.applied then .checking rest else .applying name rest

/-- A commit, which the entry of another process's commit refuses. -/
def Database.commit (db : Database σ) (name : String) (made : σ) : Option (Database σ) :=
  if name ∈ db.applied then none else some ⟨made, db.applied ++ [name]⟩

/-- The migrations of the newest build. -/
def migrations : List String :=
  ["0001_init.sql", "0002_prizes.sql", "0003_trade_prices.sql", "0004_trade_fees.sql",
    "0005_strategy_keys.sql", "0006_stop_loss.sql", "0007_wallet_limits.sql",
    "0008_trades_by_wallet.sql", "0009_referrals.sql", "0010_trade_terms.sql",
    "0011_take_profit.sql", "0012_prize_receipts.sql", "0013_market_cards.sql", "0014_devices.sql"]

theorem migrations_nodup : migrations.Nodup := by decide +kernel

namespace Fleet

variable (sql : String → σ → Option σ)

/-- A process moves on. -/
def move (f : Fleet σ) (i : ℕ) (p : Starter σ) (stage : Stage σ) : Fleet σ :=
  { f with procs := f.procs.set i { p with stage := stage } }

def step (f : Fleet σ) : StartAction → Option (Fleet σ)
  | .start files =>
    let names := files.insertionSort (· ≤ ·)
    some { f with procs := f.procs ++ [⟨names, .checking names⟩] }
  | .look i => do
    let p ← f.procs[i]?
    match p.stage with
    | .checking rest => some (f.move i p (f.db.look rest))
    | _ => none
  | .apply i => do
    let p ← f.procs[i]?
    match p.stage with
    | .applying name rest =>
      match sql name f.db.schema with
      | none => some (f.move i p .ended)
      | some made => some (f.move i p (.committing name rest made))
    | _ => none
  | .commit i c => do
    let p ← f.procs[i]?
    match p.stage with
    | .committing name rest made =>
      match f.db.commit name made, c with
      | some db, .done => some (({ f with db := db }).move i p (.checking rest))
      | some db, .lost => some (({ f with db := db }).move i p .ended)
      | _, _ => some (f.move i p .ended)
    | _ => none
  | .stop i => do
    let p ← f.procs[i]?
    some (f.move i p .ended)

/-! ## What holds throughout -/

variable {sql : String → σ → Option σ} {all : List String} {init : σ} {db db' : Database σ}
  {p : Starter σ} {f f' : Fleet σ} {a : StartAction} {as : List StartAction} {name : String}
  {rest : List String} {made : σ} {i : ℕ}

/-- What a list of migrations makes of a database. -/
def runAll (sql : String → σ → Option σ) (names : List String) (s : σ) : Option σ :=
  names.foldlM (fun s name => sql name s) s

/-- The migrations applied are the first ones, and the database is what they make of it. -/
structure Migrated (sql : String → σ → Option σ) (all : List String) (init : σ)
    (db : Database σ) : Prop where
  first : db.applied <+: all
  ran : runAll sql db.applied init = some db.schema

/-- What a process has left: all of its build before that is applied. -/
def Left (db : Database σ) (p : Starter σ) (rest : List String) : Prop :=
  ∃ gone, p.build = gone ++ rest ∧ gone <+: db.applied

/-- A process is where the database lets it be. -/
def Placed (sql : String → σ → Option σ) (db : Database σ) (p : Starter σ) : Prop :=
  match p.stage with
  | .checking rest => Left db p rest
  | .applying name rest => Left db p (name :: rest)
  | .committing name rest made => Left db p (name :: rest) ∧
      (name ∉ db.applied → sql name db.schema = some made)
  | .served => p.build <+: db.applied
  | .ended => True

structure Sound (sql : String → σ → Option σ) (all : List String) (init : σ) (f : Fleet σ) :
    Prop where
  migrated : Migrated sql all init f.db
  builds : ∀ p ∈ f.procs, p.build <+: all
  placed : ∀ p ∈ f.procs, Placed sql f.db p

/-- Builds have the first migrations of all. -/
def Fits (all : List String) (_ : Fleet σ) : StartAction → Prop
  | .start files => files.insertionSort (· ≤ ·) <+: all
  | _ => True

/-- What a process has next is applied with all before it, or it is what the database has next. -/
theorem Left.next (h : Left db p (name :: rest)) (hdb : db.applied <+: all) (hp : p.build <+: all) :
    ∃ gone, p.build = gone ++ name :: rest ∧ gone ++ [name] <+: all ∧
      (gone ++ [name] <+: db.applied ∨ db.applied = gone) := by
  obtain ⟨gone, hbuild, hgone⟩ := h
  have hnext : gone ++ [name] <+: all := by
    refine List.IsPrefix.trans ?_ hp
    rw [hbuild]
    exact ⟨rest, by simp⟩
  refine ⟨gone, hbuild, hnext, ?_⟩
  rcases List.prefix_or_prefix_of_prefix hnext hdb with hlong | hshort
  · exact .inl hlong
  · rcases List.prefix_concat_iff.mp hshort with heq | hle
    · exact .inl (heq ▸ List.prefix_rfl)
    · exact .inr (hle.eq_of_length_le hgone.length_le)

/-- What is applied is past. -/
theorem Left.pass (h : Left db p (name :: rest)) (hall : all.Nodup) (hdb : db.applied <+: all)
    (hp : p.build <+: all) (hin : name ∈ db.applied) : Left db p rest := by
  obtain ⟨gone, hbuild, hnext, hlong | heq⟩ := h.next hdb hp
  · exact ⟨gone ++ [name], by simp [hbuild], hlong⟩
  · have hnodup := hall.sublist hnext.sublist
    rw [heq] at hin
    rw [List.nodup_append] at hnodup
    exact absurd rfl (hnodup.2.2 name hin name List.mem_cons_self)

/-- What is not applied yet is what the database has next. -/
theorem Left.first (h : Left db p (name :: rest)) (hdb : db.applied <+: all) (hp : p.build <+: all)
    (hnew : name ∉ db.applied) :
    p.build = db.applied ++ name :: rest ∧ db.applied ++ [name] <+: all := by
  obtain ⟨gone, hbuild, hnext, hlong | heq⟩ := h.next hdb hp
  · exact absurd (hlong.subset (by simp)) hnew
  · exact heq ▸ ⟨hbuild, hnext⟩

theorem Left.look (h : Left db p rest) (hall : all.Nodup) (hdb : db.applied <+: all)
    (hp : p.build <+: all) : Placed sql db { p with stage := db.look rest } := by
  cases rest with
  | nil =>
    obtain ⟨gone, hbuild, hgone⟩ := h
    simpa [Placed, Database.look, hbuild] using hgone
  | cons name rest =>
    simp only [Database.look]
    split
    · next hin => exact h.pass hall hdb hp hin
    · exact h

/-- Entries are only added. -/
theorem Left.mono (h : Left db p rest) (hgrow : db.applied <+: db'.applied) : Left db' p rest := by
  obtain ⟨gone, hbuild, hgone⟩ := h
  exact ⟨gone, hbuild, hgone.trans hgrow⟩

/-- A commit takes the next migration, and whoever had made the same is too late. -/
theorem Migrated.commit (hdb : Migrated sql all init db) (hp : p.build <+: all)
    (hplaced : Placed sql db p) (hstage : p.stage = .committing name rest made)
    (hcommit : db.commit name made = some db') :
    Migrated sql all init db' ∧ db'.applied = db.applied ++ [name] ∧ Left db' p rest := by
  simp only [Placed, hstage] at hplaced
  obtain ⟨hleft, hmade⟩ := hplaced
  simp only [Database.commit, Option.ite_none_left_eq_some] at hcommit
  obtain ⟨hnew, hcommit⟩ := hcommit
  obtain rfl := Option.some.inj hcommit
  obtain ⟨hbuild, hnext⟩ := hleft.first hdb.first hp hnew
  refine ⟨⟨hnext, ?_⟩, rfl, ⟨db.applied ++ [name], by simp [hbuild], List.prefix_rfl⟩⟩
  have hran := hdb.ran
  simp only [runAll] at hran ⊢
  rw [foldlM_concat, hran]
  exact hmade hnew

/-- The others stay where they were, or will find themselves too late. -/
theorem Placed.mono (h : Placed sql db p) (hp : p.build <+: all) (hdb : db.applied <+: all)
    (hgrow : db'.applied = db.applied ++ [name]) (hfirst : db'.applied <+: all) :
    Placed sql db' p := by
  have hle : db.applied <+: db'.applied := ⟨[name], hgrow.symm⟩
  unfold Placed at *
  cases hstage : p.stage with
  | checking rest =>
    simp only [hstage] at h
    exact h.mono hle
  | applying other rest =>
    simp only [hstage] at h
    exact h.mono hle
  | committing other rest made =>
    simp only [hstage] at h
    obtain ⟨hleft, -⟩ := h
    refine ⟨hleft.mono hle, fun hnew => ?_⟩
    have hold : other ∉ db.applied := fun hin => hnew (hle.subset hin)
    obtain ⟨-, hnext⟩ := hleft.first hdb hp hold
    have hsame : db.applied ++ [other] = db'.applied := by
      refine List.IsPrefix.eq_of_length ?_ (by simp [hgrow])
      exact List.prefix_of_prefix_length_le hnext hfirst (by simp [hgrow])
    exact absurd (hsame ▸ by simp) hnew
  | served =>
    simp only [hstage] at h
    exact h.trans hle
  | ended => trivial

/-- A process that moves on without a commit. -/
theorem Sound.move {stage : Stage σ} (h : Sound sql all init f) (hp : f.procs[i]? = some p)
    (hstage : Placed sql f.db { p with stage := stage }) : Sound sql all init (f.move i p stage) := by
  have hin := List.mem_of_getElem? hp
  refine ⟨h.migrated, fun q hq => ?_, fun q hq => ?_⟩
  · rcases List.mem_or_eq_of_mem_set hq with hold | rfl
    · exact h.builds q hold
    · exact h.builds p hin
  · rcases List.mem_or_eq_of_mem_set hq with hold | rfl
    · exact h.placed q hold
    · exact hstage

theorem Sound.commit (h : Sound sql all init f) (hp : f.procs[i]? = some p)
    (hstage : p.stage = .committing name rest made) (hcommit : f.db.commit name made = some db) :
    Sound sql all init (({ f with db := db }).move i p (.checking rest)) ∧
      Sound sql all init (({ f with db := db }).move i p .ended) := by
  have hin := List.mem_of_getElem? hp
  obtain ⟨hdb, hgrow, hleft⟩ :=
    h.migrated.commit (h.builds p hin) (h.placed p hin) hstage hcommit
  have hother : Sound sql all init { f with db := db } := by
    refine ⟨hdb, h.builds, fun q hq => ?_⟩
    exact (h.placed q hq).mono (h.builds q hq) h.migrated.first hgrow hdb.first
  exact ⟨hother.move hp hleft, hother.move hp trivial⟩

theorem Sound.step (hall : all.Nodup) (h : Sound sql all init f) (ha : Fits all f a)
    (hf : step sql f a = some f') : Sound sql all init f' := by
  cases a with
  | start files =>
    obtain rfl := Option.some.inj hf
    refine ⟨h.migrated, fun p hp => ?_, fun p hp => ?_⟩
    · rcases List.mem_append.mp hp with hold | hnew
      · exact h.builds p hold
      · rw [List.mem_singleton.mp hnew]
        exact ha
    · rcases List.mem_append.mp hp with hold | hnew
      · exact h.placed p hold
      · rw [List.mem_singleton.mp hnew]
        exact ⟨[], rfl, List.nil_prefix⟩
  | look i =>
    obtain ⟨p, hp, hf⟩ := Option.bind_eq_some_iff.mp hf
    have hin := List.mem_of_getElem? hp
    have hplaced := h.placed p hin
    split at hf
    · next hstage =>
      obtain rfl := Option.some.inj hf
      simp only [Placed, hstage] at hplaced
      exact h.move hp (hplaced.look hall h.migrated.first (h.builds p hin))
    · cases hf
  | apply i =>
    obtain ⟨p, hp, hf⟩ := Option.bind_eq_some_iff.mp hf
    have hplaced := h.placed p (List.mem_of_getElem? hp)
    split at hf
    · next hstage =>
      simp only [Placed, hstage] at hplaced
      split at hf
      · obtain rfl := Option.some.inj hf
        exact h.move hp trivial
      · next hmade =>
        obtain rfl := Option.some.inj hf
        exact h.move hp ⟨hplaced, fun _ => hmade⟩
    · cases hf
  | commit i c =>
    obtain ⟨p, hp, hf⟩ := Option.bind_eq_some_iff.mp hf
    split at hf
    · next name rest made hstage =>
      have hended : Sound sql all init (f.move i p .ended) := h.move hp trivial
      cases hcommit : f.db.commit name made with
      | none =>
        simp only [hcommit] at hf
        exact Option.some.inj hf ▸ hended
      | some db =>
        obtain ⟨hdone, hlost⟩ := h.commit hp hstage hcommit
        simp only [hcommit] at hf
        cases c with
        | done => exact Option.some.inj hf ▸ hdone
        | refused => exact Option.some.inj hf ▸ hended
        | lost => exact Option.some.inj hf ▸ hlost
    · cases hf
  | stop i =>
    obtain ⟨p, hp, hf⟩ := Option.bind_eq_some_iff.mp hf
    obtain rfl := Option.some.inj hf
    exact h.move hp trivial

/-- A database that no process has touched. -/
def untouched (init : σ) : Fleet σ := ⟨⟨init, []⟩, []⟩

theorem untouched_sound : Sound sql all init (untouched init) where
  migrated := ⟨List.nil_prefix, rfl⟩
  builds := nofun
  placed := nofun

/-- Whatever processes start together and wherever they stop: the migrations applied are the first
ones, each once and in order, the database is what they make of it one after the other, and a
process that serves finds all those of its build applied. -/
theorem migrated_in_order (hall : all.Nodup)
    (h : Run (fun f a f' => step sql f a = some f') (Fits all) (untouched init) as f) :
    f.db.applied <+: all ∧ runAll sql f.db.applied init = some f.db.schema ∧
      ∀ p ∈ f.procs, p.stage = .served → p.build <+: f.db.applied := by
  have hsound : Sound sql all init f :=
    h.invariant untouched_sound fun _ _ _ hi ha hf => hi.step hall ha hf
  refine ⟨hsound.migrated.first, hsound.migrated.ran, fun p hp hserved => ?_⟩
  have hplaced := hsound.placed p hp
  simp only [Placed, hserved] at hplaced
  exact hplaced

/-- A database that keeps a log of what was run on it. -/
def logged (name : String) (log : List String) : Option (List String) := some (log ++ [name])

/-- Two processes of the first build: both run its migration, and one is too late. -/
def raced : Fleet (List String) where
  db := ⟨["0001_init.sql"], ["0001_init.sql"]⟩
  procs := [⟨["0001_init.sql"], .served⟩, ⟨["0001_init.sql"], .ended⟩]

theorem run_raced : Run (fun f a f' => step logged f a = some f') (Fits migrations)
    (untouched [])
    [.start ["0001_init.sql"], .start ["0001_init.sql"], .look 0, .look 1, .apply 0, .apply 1,
      .commit 0 .done, .commit 1 .done, .look 0] raced := by
  have hfirst : ["0001_init.sql"] <+: migrations := ⟨_, rfl⟩
  refine Run.of_exec (by rfl) fun a ha f => ?_
  simp only [List.mem_cons, List.not_mem_nil, or_false] at ha
  rcases ha with rfl | rfl | rfl | rfl | rfl | rfl | rfl | rfl | rfl
  · exact hfirst
  · exact hfirst
  all_goals trivial

theorem migrated_in_order_raced :
    raced.db.applied <+: migrations ∧ runAll logged raced.db.applied [] = some raced.db.schema ∧
      ∀ p ∈ raced.procs, p.stage = .served → p.build <+: raced.db.applied :=
  migrated_in_order migrations_nodup run_raced

/-! ## A start that is left alone finishes -/

/-- The steps a process takes by itself when nothing goes wrong. -/
def Own (i : ℕ) (a : StartAction) : Prop := a = .look i ∨ a = .apply i ∨ a = .commit i .done

theorem Sound.own (hall : all.Nodup) (h : Sound sql all init f) (ha : Own i a)
    (hf : Fleet.step sql f a = some f') : Sound sql all init f' := by
  refine h.step hall ?_ hf
  rcases ha with rfl | rfl | rfl
  · trivial
  · trivial
  · trivial

/-- The migration a process has next can be run, where all of them can. -/
theorem Sound.runs (h : Sound sql all init f) (hsql : (runAll sql all init).isSome)
    (hp : p ∈ f.procs) (hleft : Left f.db p (name :: rest)) (hnew : name ∉ f.db.applied) :
    ∃ made, sql name f.db.schema = some made := by
  obtain ⟨-, hnext⟩ := hleft.first h.migrated.first (h.builds p hp) hnew
  have hran : f.db.applied.foldlM (fun s name => sql name s) init = some f.db.schema :=
    h.migrated.ran
  have hsome := isSome_foldlM_of_prefix hnext hsql
  rw [foldlM_concat, hran] at hsome
  exact Option.isSome_iff_exists.mp hsome

end Fleet

end SuperAgent.Store
