import Mathlib.Data.List.AList
import SuperAgent.Core.Clock
import SuperAgent.Core.Run

/-!
# One computation for everyone who asks

A value is kept under its key for a short while. Its entry is put in the table
before there is a value, so that others who ask wait for the same computation; a
key that is forgotten loses its entry, and a table that has grown loses what has
gone stale. The table is touched under a lock, the computations run outside it.
-/

namespace SuperAgent.Platform

/-- An entry, with the key it was made for. It is done once its value is there and stamped. -/
structure MemoEntry (α ε : Type) where
  key : String
  done : Bool
  stamp : Time
  result : Option (Except ε α)

/-- What a call finds under its key, under the lock. -/
inductive Looked (α : Type)
  | fresh (e : ℕ) (v : α)
  | underWay (e : ℕ)
  | missing

/-- Where a call of `Get` is. -/
inductive MemoStage (α ε : Type)
  | uncalled
  | called (key : String)
  /-- Its entry is in the table, and it holds the lock. -/
  | published (key : String) (e : ℕ)
  /-- It holds the lock, and has these keys left to look at. -/
  | pruning (key : String) (e : ℕ) (cutoff : Time) (left : List String)
  | computing (key : String) (e : ℕ)
  /-- The value is set, and not stamped. -/
  | computed (key : String) (e : ℕ)
  /-- The value is stamped, and not marked done. -/
  | stamped (key : String) (e : ℕ)
  /-- It returns what the entry holds once it is done. -/
  | waiting (key : String) (e : ℕ)
  | returned (key : String) (e : ℕ) (r : Except ε α)

/-- The entry a call is about, and its key. -/
def MemoStage.entry {α ε : Type} : MemoStage α ε → Option (String × ℕ)
  | .uncalled => none
  | .called _ => none
  | .published key e => some (key, e)
  | .pruning key e _ _ => some (key, e)
  | .computing key e => some (key, e)
  | .computed key e => some (key, e)
  | .stamped key e => some (key, e)
  | .waiting key e => some (key, e)
  | .returned key e _ => some (key, e)

/-- The entry a call computes the value of. -/
def MemoStage.working {α ε : Type} : MemoStage α ε → Option ℕ
  | .published _ e => some e
  | .pruning _ e _ _ => some e
  | .computing _ e => some e
  | .computed _ e => some e
  | .stamped _ e => some e
  | _ => none

/-- The table over the entries ever made, which are numbered in the order their computations began. -/
structure Memo (α ε : Type) where
  now : Time
  /-- The call that holds the lock. -/
  lock : Option ℕ
  entries : AList fun _ : String => ℕ
  made : ℕ → MemoEntry α ε
  begun : ℕ
  gets : ℕ → MemoStage α ε

/-- What happens next: the clock advances, a call goes on, or a key is forgotten. -/
inductive MemoAction
  | tick (t : Time)
  | get (i : ℕ)
  | forget (key : String)
  deriving DecidableEq

namespace Memo

variable {α ε : Type} (ttl : Duration) (s : Memo α ε)

/-- A memo nobody has called. -/
def start (now : Time) : Memo α ε := ⟨now, none, ∅, fun _ => ⟨"", false, 0, none⟩, 0, fun _ => .uncalled⟩

/-- A fresh entry, a computation already under way, or neither. -/
def look (key : String) : Looked α :=
  match s.entries.lookup key with
  | none => .missing
  | some e =>
    if (s.made e).done then
      match (s.made e).result with
      | some (.ok v) => if s.now.sub (s.made e).stamp < ttl then .fresh e v else .missing
      | _ => .missing
    else .underWay e

/-- A call goes on. -/
def set (i : ℕ) (stage : MemoStage α ε) : Memo α ε :=
  { s with gets := Function.update s.gets i stage }

/-- What an entry holds changes. -/
def record (e : ℕ) (entry : MemoEntry α ε) : Memo α ε :=
  { s with made := Function.update s.made e entry }

/-- A call puts a new entry in the table, and keeps the lock. -/
def publish (i : ℕ) (key : String) : Memo α ε where
  now := s.now
  lock := some i
  entries := s.entries.insert key s.begun
  made := Function.update s.made s.begun ⟨key, false, 0, none⟩
  begun := s.begun + 1
  gets := Function.update s.gets i (.published key s.begun)

/-- Pruning looks at a key: an entry that is done and stale is dropped. -/
def visit (cutoff : Time) (key : String) : Memo α ε :=
  match s.entries.lookup key with
  | none => s
  | some e =>
    if (s.made e).done ∧ (s.made e).stamp < cutoff then { s with entries := s.entries.erase key }
    else s

def unlock : Memo α ε := { s with lock := none }

/-- One step of a call, a key forgotten, or the clock. -/
inductive Step (s : Memo α ε) : MemoAction → Memo α ε → Prop
  | tick {t : Time} : s.now ≤ t → Step s (.tick t) { s with now := t }
  | called {i : ℕ} {key : String} : s.gets i = .uncalled → Step s (.get i) (s.set i (.called key))
  | kept {i e : ℕ} {key : String} {v : α} : s.gets i = .called key → s.lock = none →
    s.look ttl key = .fresh e v → Step s (.get i) (s.set i (.returned key e (.ok v)))
  | joins {i e : ℕ} {key : String} : s.gets i = .called key → s.lock = none →
    s.look ttl key = .underWay e → Step s (.get i) (s.set i (.waiting key e))
  | begins {i : ℕ} {key : String} : s.gets i = .called key → s.lock = none →
    s.look ttl key = .missing → Step s (.get i) (s.publish i key)
  | small {i e : ℕ} {key : String} : s.gets i = .published key e → s.entries.keys.length < 512 →
    Step s (.get i) ((s.set i (.computing key e)).unlock)
  | prunes {i e : ℕ} {key : String} {order : List String} : s.gets i = .published key e →
    512 ≤ s.entries.keys.length → order.Perm s.entries.keys →
    Step s (.get i) (s.set i (.pruning key e (s.now.add (-ttl)) order))
  | visits {i e : ℕ} {key k : String} {cutoff : Time} {left : List String} :
    s.gets i = .pruning key e cutoff (k :: left) →
    Step s (.get i) ((s.visit cutoff k).set i (.pruning key e cutoff left))
  | pruned {i e : ℕ} {key : String} {cutoff : Time} : s.gets i = .pruning key e cutoff [] →
    Step s (.get i) ((s.set i (.computing key e)).unlock)
  | computes {i e : ℕ} {key : String} {r : Except ε α} : s.gets i = .computing key e →
    Step s (.get i) ((s.record e { s.made e with result := some r }).set i (.computed key e))
  | stamps {i e : ℕ} {key : String} : s.gets i = .computed key e →
    Step s (.get i) ((s.record e { s.made e with stamp := s.now }).set i (.stamped key e))
  | closes {i e : ℕ} {key : String} : s.gets i = .stamped key e →
    Step s (.get i) ((s.record e { s.made e with done := true }).set i (.waiting key e))
  | returns {i e : ℕ} {key : String} {r : Except ε α} : s.gets i = .waiting key e →
    (s.made e).done → (s.made e).result = some r → Step s (.get i) (s.set i (.returned key e r))
  | forget {key : String} : s.lock = none →
    Step s (.forget key) { s with entries := s.entries.erase key }

/-! ## What a call finds -/

/-- A call of a key goes on with this entry. -/
inductive Finds (s : Memo α ε) (key : String) : ℕ → Prop
  | fresh {e : ℕ} {v : α} : s.look ttl key = .fresh e v → Finds s key e
  | underWay {e : ℕ} : s.look ttl key = .underWay e → Finds s key e
  | missing : s.look ttl key = .missing → Finds s key s.begun

variable {ttl s} {s' t : Memo α ε} {a : MemoAction} {i j e d n : ℕ} {key k : String} {v : α}
  {stage : MemoStage α ε} {entry : MemoEntry α ε} {cutoff : Time} {p : String × ℕ}

@[simp] theorem set_self : (s.set i stage).gets i = stage := Function.update_self _ _ _

@[simp] theorem set_of_ne (h : j ≠ i) : (s.set i stage).gets j = s.gets j :=
  Function.update_of_ne h _ _

@[simp] theorem record_self : (s.record e entry).made e = entry := Function.update_self _ _ _

@[simp] theorem record_of_ne (h : d ≠ e) : (s.record e entry).made d = s.made d :=
  Function.update_of_ne h _ _

theorem publish_self : (s.publish i key).gets i = .published key s.begun :=
  Function.update_self _ _ _

theorem publish_of_ne (h : j ≠ i) : (s.publish i key).gets j = s.gets j :=
  Function.update_of_ne h _ _

theorem visit_gets : (s.visit cutoff k).gets = s.gets := by
  unfold visit
  split
  · rfl
  · split <;> rfl

theorem visit_made : (s.visit cutoff k).made = s.made := by
  unfold visit
  split
  · rfl
  · split <;> rfl

theorem visit_begun : (s.visit cutoff k).begun = s.begun := by
  unfold visit
  split
  · rfl
  · split <;> rfl

/-- What is in the table after an entry was looked at was there before. -/
theorem of_lookup_visit (h : (s.visit cutoff k).entries.lookup key = some e) :
    s.entries.lookup key = some e := by
  unfold visit at h
  split at h
  · exact h
  · split at h
    · by_cases heq : key = k
      · subst heq
        rw [AList.lookup_erase] at h
        cases h
      · rwa [AList.lookup_erase_ne heq] at h
    · exact h

/-- Pruning leaves what is not done. -/
theorem lookup_visit (h : s.entries.lookup key = some e) (hdone : (s.made e).done = false) :
    (s.visit cutoff k).entries.lookup key = some e := by
  unfold visit
  split
  · exact h
  · rename_i d hd
    split
    · rename_i hstale
      have hne : key ≠ k := by
        rintro rfl
        obtain rfl : e = d := Option.some.inj (h.symm.trans hd)
        rw [hdone] at hstale
        exact Bool.false_ne_true hstale.1
      exact (AList.lookup_erase_ne hne).trans h
    · exact h

theorem look_eq_fresh (h : s.look ttl key = .fresh e v) : s.entries.lookup key = some e ∧
    (s.made e).result = some (.ok v) ∧ (s.made e).done ∧ s.now.sub (s.made e).stamp < ttl := by
  unfold look at h
  split at h
  · cases h
  · rename_i d hd
    split at h
    · rename_i hdone
      split at h
      · rename_i w hw
        split at h
        · rename_i hlt
          cases h
          exact ⟨hd, hw, hdone, hlt⟩
        · cases h
      · cases h
    · cases h

theorem look_eq_underWay : s.look ttl key = .underWay e ↔
    s.entries.lookup key = some e ∧ (s.made e).done = false := by
  unfold look
  cases hd : s.entries.lookup key with
  | none => exact iff_of_false (fun h => by cases h) fun h => by cases h.1
  | some d =>
    dsimp only
    cases hdone : (s.made d).done with
    | false =>
      rw [if_neg Bool.false_ne_true]
      constructor
      · intro h
        cases h
        exact ⟨rfl, hdone⟩
      · rintro ⟨h, -⟩
        cases h
        rfl
    | true =>
      rw [if_pos rfl]
      constructor
      · intro h
        split at h
        · split at h <;> cases h
        · cases h
      · rintro ⟨h, hnot⟩
        cases h
        rw [hdone] at hnot
        cases hnot

/-- A call finds what is in the table, or makes a new entry. -/
theorem Finds.lookup_or (h : s.Finds ttl key e) : s.entries.lookup key = some e ∨ e = s.begun := by
  cases h with
  | fresh h => exact .inl (look_eq_fresh h).1
  | underWay h => exact .inl (look_eq_underWay.mp h).1
  | missing _ => exact .inr rfl

/-! ## What a step does -/

theorem entry_set {old : MemoStage α ε} (hi : s.gets i = old) (h : stage.entry = old.entry) :
    ((s.set i stage).gets j).entry = (s.gets j).entry := by
  by_cases hji : j = i
  · subst hji
    rw [set_self, h, hi]
  · rw [set_of_ne hji]

/-- A step leaves every call with its entry, but one call may look for its key and find one. -/
theorem Step.entry_cases (h : s.Step ttl a s') : (∀ j, (s'.gets j).entry = (s.gets j).entry) ∨
    ∃ i key e, a = .get i ∧ s.gets i = .called key ∧ s.Finds ttl key e ∧
      (s'.gets i).entry = some (key, e) ∧ ∀ j, j ≠ i → s'.gets j = s.gets j := by
  cases h with
  | tick _ => exact .inl fun _ => rfl
  | called hi => exact .inl fun _ => entry_set hi rfl
  | @kept i e key v hi _ hlook =>
    refine .inr ⟨i, key, e, rfl, hi, .fresh hlook, ?_, fun j hj => set_of_ne hj⟩
    rw [set_self]
    rfl
  | @joins i e key hi _ hlook =>
    refine .inr ⟨i, key, e, rfl, hi, .underWay hlook, ?_, fun j hj => set_of_ne hj⟩
    rw [set_self]
    rfl
  | @begins i key hi _ hlook =>
    refine .inr ⟨i, key, s.begun, rfl, hi, .missing hlook, ?_, fun j hj => publish_of_ne hj⟩
    rw [publish_self]
    rfl
  | small hi _ => exact .inl fun _ => entry_set hi rfl
  | prunes hi _ _ => exact .inl fun _ => entry_set hi rfl
  | @visits i e key k cutoff left hi =>
    have hvisit : (s.visit cutoff k).gets i = .pruning key e cutoff (k :: left) := by
      rw [visit_gets, hi]
    have hset : ∀ j, (((s.visit cutoff k).set i (.pruning key e cutoff left)).gets j).entry =
        ((s.visit cutoff k).gets j).entry := fun j => entry_set hvisit rfl
    exact .inl fun j => by rw [hset, visit_gets]
  | pruned hi => exact .inl fun _ => entry_set hi rfl
  | computes hi => exact .inl fun _ => entry_set hi rfl
  | stamps hi => exact .inl fun _ => entry_set hi rfl
  | closes hi => exact .inl fun _ => entry_set hi rfl
  | returns hi _ _ => exact .inl fun _ => entry_set hi rfl
  | forget _ => exact .inl fun _ => rfl

/-- A call that has an entry keeps it. -/
theorem Step.entry_keep (h : s.Step ttl a s') (hi : (s.gets i).entry = some p) :
    (s'.gets i).entry = some p := by
  rcases h.entry_cases with hsame | ⟨j, key, e, -, hj, -, -, hothers⟩
  · exact (hsame i).trans hi
  · have hne : i ≠ j := by
      rintro rfl
      rw [hj] at hi
      cases hi
    rw [hothers i hne]
    exact hi

/-- A call that has an entry had it, or has just found it. -/
theorem Step.entry_or (h : s.Step ttl a s') (hi : (s'.gets i).entry = some (key, e)) :
    (s.gets i).entry = some (key, e) ∨ s.Finds ttl key e := by
  rcases h.entry_cases with hsame | ⟨j, key', d, -, hj, hfinds, hentry, hothers⟩
  · exact .inl ((hsame i).symm.trans hi)
  · by_cases hij : i = j
    · subst hij
      cases hentry.symm.trans hi
      exact .inr hfinds
    · rw [hothers i hij] at hi
      exact .inl hi

/-- A call that looks for its key finds an entry. -/
theorem Step.looked (h : s.Step ttl (.get i) s') (hi : s.gets i = .called key) :
    ∃ e, s.Finds ttl key e ∧ (s'.gets i).entry = some (key, e) := by
  generalize ha : MemoAction.get i = a at h
  cases h with
  | kept hj _ hlook =>
    cases ha
    cases hi.symm.trans hj
    exact ⟨_, .fresh hlook, by rw [set_self]; rfl⟩
  | joins hj _ hlook =>
    cases ha
    cases hi.symm.trans hj
    exact ⟨_, .underWay hlook, by rw [set_self]; rfl⟩
  | begins hj _ hlook =>
    cases ha
    cases hi.symm.trans hj
    exact ⟨_, .missing hlook, by rw [publish_self]; rfl⟩
  | _ => grind

/-- The table holds what it held, and the entry that was just made. -/
theorem Step.lookup_or (h : s.Step ttl a s') (hkey : s'.entries.lookup key = some e) :
    s.entries.lookup key = some e ∨ e = s.begun := by
  cases h with
  | @begins i k hi _ _ =>
    rw [publish] at hkey
    dsimp only at hkey
    by_cases heq : key = k
    · subst heq
      rw [AList.lookup_insert] at hkey
      exact .inr (Option.some.inj hkey).symm
    · rw [AList.lookup_insert_ne heq] at hkey
      exact .inl hkey
  | visits hi => exact .inl (of_lookup_visit hkey)
  | @forget k _ =>
    by_cases heq : key = k
    · subst heq
      rw [AList.lookup_erase] at hkey
      cases hkey
    · rw [AList.lookup_erase_ne heq] at hkey
      exact .inl hkey
  | _ => exact .inl hkey

/-- Only a key that is forgotten loses an entry that is not done. -/
theorem Step.lookup_keep (h : s.Step ttl a s') (hkey : s.entries.lookup key = some e)
    (hdone : (s.made e).done = false) (ha : a ≠ .forget key) :
    s'.entries.lookup key = some e := by
  cases h with
  | @begins i k hi _ hlook =>
    have hne : key ≠ k := by
      rintro rfl
      rw [look_eq_underWay.mpr ⟨hkey, hdone⟩] at hlook
      cases hlook
    exact (AList.lookup_insert_ne hne).trans hkey
  | visits hi => exact lookup_visit hkey hdone
  | @forget k _ =>
    have hne : key ≠ k := by
      rintro rfl
      exact ha rfl
    exact (AList.lookup_erase_ne hne).trans hkey
  | _ => exact hkey

theorem Step.begun_le (h : s.Step ttl a s') : s.begun ≤ s'.begun := by
  cases h with
  | begins _ _ _ => exact Nat.le_succ s.begun
  | visits _ => exact visit_begun.ge
  | _ => exact le_rfl

/-- A computation begins where a call finds none. -/
theorem Step.begins_of (h : s.Step ttl (.get i) s') (hi : s.gets i = .called key)
    (hbegun : s'.begun = s.begun + 1) : s.look ttl key = .missing ∧ s' = s.publish i key := by
  generalize ha : MemoAction.get i = a at h
  cases h with
  | @begins j k hj _ hlook =>
    cases ha
    rw [hi] at hj
    cases hj
    exact ⟨hlook, rfl⟩
  | visits _ => exact absurd (visit_begun.symm.trans hbegun) (Nat.succ_ne_self s.begun).symm
  | _ => exact absurd hbegun (Nat.succ_ne_self s.begun).symm

/-! ## Entries and their calls -/

/-- Entries belong to their keys, each is computed by one call until it is done, and a call returns
what its entry holds. -/
structure Sound (s : Memo α ε) : Prop where
  tabled : ∀ key e, s.entries.lookup key = some e → e < s.begun ∧ (s.made e).key = key
  known : ∀ i key e, (s.gets i).entry = some (key, e) → e < s.begun ∧ (s.made e).key = key
  working : ∀ i e, (s.gets i).working = some e → (s.made e).done = false
  alone : ∀ i j e, (s.gets i).working = some e → (s.gets j).working = some e → i = j
  unmade : ∀ e, s.begun ≤ e → (s.made e).done = false
  returned : ∀ i key e r, s.gets i = .returned key e r → (s.made e).done ∧ (s.made e).result = some r

theorem start_sound (now : Time) : (start now : Memo α ε).Sound := by
  refine ⟨fun key e h => ?_, fun i key e h => ?_, fun i e h => ?_, fun i j e h => ?_,
    fun e _ => rfl, fun i key e r h => ?_⟩ <;> cases h

theorem entry_of_working (h : stage.working = some e) : ∃ key, stage.entry = some (key, e) := by
  cases stage <;> cases h <;> exact ⟨_, rfl⟩

theorem Sound.lt_begun (h : s.Sound) (hi : (s.gets i).working = some e) : e < s.begun := by
  obtain ⟨key, hentry⟩ := entry_of_working hi
  exact (h.known i key e hentry).1

theorem working_set {old : MemoStage α ε} (hi : s.gets i = old)
    (hworking : ∀ e, stage.working = some e → old.working = some e)
    (hj : ((s.set i stage).gets j).working = some e) : (s.gets j).working = some e := by
  by_cases hji : j = i
  · subst hji
    rw [set_self] at hj
    rw [hi]
    exact hworking e hj
  · rwa [set_of_ne hji] at hj

/-- A call that goes on computes nothing new. -/
theorem Sound.set {old : MemoStage α ε} (h : s.Sound) (hi : s.gets i = old)
    (hentry : ∀ key e, stage.entry = some (key, e) → e < s.begun ∧ (s.made e).key = key)
    (hworking : ∀ e, stage.working = some e → old.working = some e)
    (hreturned : ∀ key e r, stage = .returned key e r →
      (s.made e).done ∧ (s.made e).result = some r) : (s.set i stage).Sound where
  tabled := h.tabled
  known j key e hj := by
    by_cases hji : j = i
    · subst hji
      rw [set_self] at hj
      exact hentry key e hj
    · rw [set_of_ne hji] at hj
      exact h.known j key e hj
  working j e hj := h.working j e (working_set hi hworking hj)
  alone j l e hj hl := h.alone j l e (working_set hi hworking hj) (working_set hi hworking hl)
  unmade := h.unmade
  returned j key e r hj := by
    by_cases hji : j = i
    · subst hji
      rw [set_self] at hj
      exact hreturned key e r hj
    · rw [set_of_ne hji] at hj
      exact h.returned j key e r hj

/-- A call that keeps its entry and computes nothing new. -/
theorem Sound.move {old : MemoStage α ε} (h : s.Sound) (hi : s.gets i = old)
    (hentry : stage.entry = old.entry) (hworking : stage.working = none ∨ stage.working = old.working)
    (hreturned : ∀ key e r, stage = .returned key e r →
      (s.made e).done ∧ (s.made e).result = some r) : (s.set i stage).Sound := by
  refine h.set hi (fun key e hstage => ?_) (fun e hstage => ?_) hreturned
  · apply h.known i key e
    rw [hi, ← hentry, hstage]
  · rcases hworking with hnone | hsame
    · rw [hnone] at hstage
      cases hstage
    · rwa [← hsame]

/-- What an entry that is not done holds changes, for its key. -/
theorem Sound.record (h : s.Sound) (hlt : e < s.begun) (hkey : entry.key = (s.made e).key)
    (hdone : (s.made e).done = false)
    (hworking : ∀ i, (s.gets i).working = some e → entry.done = false) :
    (s.record e entry).Sound := by
  have hkeys : ∀ d, ((s.record e entry).made d).key = (s.made d).key := by
    intro d
    by_cases hd : d = e
    · subst hd
      rw [record_self, hkey]
    · rw [record_of_ne hd]
  refine ⟨fun key d hd => ?_, fun i key d hd => ?_, fun i d hd => ?_, h.alone, fun d hd => ?_,
    fun i key d r hr => ?_⟩
  · rw [hkeys]
    exact h.tabled key d hd
  · rw [hkeys]
    exact h.known i key d hd
  · by_cases heq : d = e
    · subst heq
      rw [record_self]
      exact hworking i hd
    · rw [record_of_ne heq]
      exact h.working i d hd
  · rw [record_of_ne (hlt.trans_le hd).ne']
    exact h.unmade d hd
  · obtain ⟨hd, hresult⟩ := h.returned i key d r hr
    have hne : d ≠ e := by
      rintro rfl
      rw [hdone] at hd
      cases hd
    rw [record_of_ne hne]
    exact ⟨hd, hresult⟩

/-- What was in the table may be dropped. -/
theorem Sound.drop (h : s.Sound) (hmade : t.made = s.made) (hbegun : t.begun = s.begun)
    (hgets : t.gets = s.gets)
    (hentries : ∀ key e, t.entries.lookup key = some e → s.entries.lookup key = some e) :
    t.Sound := by
  refine ⟨fun key e hkey => ?_, ?_, ?_, ?_, ?_, ?_⟩
  · rw [hmade, hbegun]
    exact h.tabled key e (hentries key e hkey)
  · rw [hmade, hbegun, hgets]
    exact h.known
  · rw [hmade, hgets]
    exact h.working
  · rw [hgets]
    exact h.alone
  · rw [hmade, hbegun]
    exact h.unmade
  · rw [hmade, hgets]
    exact h.returned

/-- A new entry is computed by the call that made it. -/
theorem Sound.publish (h : s.Sound) (hi : s.gets i = .called k) : (s.publish i k).Sound := by
  have hmade : ∀ e, e < s.begun → (s.publish i k).made e = s.made e := fun e he =>
    Function.update_of_ne he.ne _ _
  have hnew : (s.publish i k).made s.begun = ⟨k, false, 0, none⟩ := Function.update_self _ _ _
  have hold : ∀ key e, e < s.begun ∧ (s.made e).key = key →
      e < s.begun + 1 ∧ ((s.publish i k).made e).key = key := fun key e he =>
    ⟨he.1.trans (Nat.lt_succ_self _), by rw [hmade e he.1, he.2]⟩
  have hfresh : s.begun < s.begun + 1 ∧ ((s.publish i k).made s.begun).key = k :=
    ⟨Nat.lt_succ_self _, by rw [hnew]⟩
  have hworking : ∀ j e, ((s.publish i k).gets j).working = some e →
      j = i ∧ e = s.begun ∨ j ≠ i ∧ (s.gets j).working = some e := by
    intro j e hj
    by_cases hji : j = i
    · subst hji
      rw [publish_self] at hj
      exact .inl ⟨rfl, (Option.some.inj hj).symm⟩
    · rw [publish_of_ne hji] at hj
      exact .inr ⟨hji, hj⟩
  refine ⟨fun key e hkey => ?_, fun j key e hj => ?_, fun j e hj => ?_, fun j l e hj hl => ?_,
    fun e he => ?_, fun j key e r hj => ?_⟩
  · by_cases heq : key = k
    · subst heq
      obtain rfl := Option.some.inj ((AList.lookup_insert s.entries).symm.trans hkey)
      exact hfresh
    · exact hold key e (h.tabled key e ((AList.lookup_insert_ne heq).symm.trans hkey))
  · by_cases hji : j = i
    · subst hji
      rw [publish_self] at hj
      cases hj
      exact hfresh
    · rw [publish_of_ne hji] at hj
      exact hold key e (h.known j key e hj)
  · rcases hworking j e hj with ⟨-, rfl⟩ | ⟨-, hj⟩
    · rw [hnew]
    · rw [hmade e (h.lt_begun hj)]
      exact h.working j e hj
  · rcases hworking j e hj with ⟨rfl, rfl⟩ | ⟨-, hjold⟩
    · rcases hworking l _ hl with ⟨rfl, -⟩ | ⟨-, hlold⟩
      · rfl
      · exact absurd (h.lt_begun hlold) (lt_irrefl _)
    · rcases hworking l e hl with ⟨rfl, rfl⟩ | ⟨-, hlold⟩
      · exact absurd (h.lt_begun hjold) (lt_irrefl _)
      · exact h.alone j l e hjold hlold
  · rcases (Nat.le_of_succ_le he).eq_or_lt with rfl | hlt
    · rw [hnew]
    · have hsame : (s.publish i k).made e = s.made e := Function.update_of_ne hlt.ne' _ _
      rw [hsame]
      exact h.unmade e hlt.le
  · by_cases hji : j = i
    · subst hji
      rw [publish_self] at hj
      cases hj
    · rw [publish_of_ne hji] at hj
      have hlt := (h.known j key e (by rw [hj]; rfl)).1
      rw [hmade e hlt]
      exact h.returned j key e r hj

theorem Sound.step (h : s.Sound) (hs : s.Step ttl a s') : s'.Sound := by
  cases hs with
  | tick _ => exact ⟨h.tabled, h.known, h.working, h.alone, h.unmade, h.returned⟩
  | called hi => exact h.move hi rfl (.inl rfl) fun _ _ _ heq => by cases heq
  | kept hi _ hlook =>
    obtain ⟨hkey, hresult, hdone, -⟩ := look_eq_fresh hlook
    refine h.set hi (fun _ _ heq => ?_) (fun _ heq => by cases heq) (fun _ _ _ heq => ?_)
    · cases heq
      exact h.tabled _ _ hkey
    · cases heq
      exact ⟨hdone, hresult⟩
  | joins hi _ hlook =>
    refine h.set hi (fun _ _ heq => ?_) (fun _ heq => by cases heq) (fun _ _ _ heq => by cases heq)
    cases heq
    exact h.tabled _ _ (look_eq_underWay.mp hlook).1
  | begins hi _ _ => exact h.publish hi
  | @small i e key hi _ =>
    have hset : (s.set i (.computing key e)).Sound :=
      h.move hi rfl (.inr rfl) fun _ _ _ heq => by cases heq
    exact hset.drop rfl rfl rfl fun _ _ hkey => hkey
  | prunes hi _ _ => exact h.move hi rfl (.inr rfl) fun _ _ _ heq => by cases heq
  | @visits i e key k cutoff left hi =>
    have hvisit : (s.visit cutoff k).Sound :=
      h.drop visit_made visit_begun visit_gets fun _ _ hkey => of_lookup_visit hkey
    exact hvisit.move ((congrFun visit_gets _).trans hi) rfl (.inr rfl) fun _ _ _ heq => by cases heq
  | @pruned i e key cutoff hi =>
    have hset : (s.set i (.computing key e)).Sound :=
      h.move hi rfl (.inr rfl) fun _ _ _ heq => by cases heq
    exact hset.drop rfl rfl rfl fun _ _ hkey => hkey
  | @computes i e key r hi =>
    have hset : (s.set i (.computed key e)).Sound :=
      h.move hi rfl (.inr rfl) fun _ _ _ heq => by cases heq
    have hi' : (s.gets i).working = some e := by
      rw [hi]
      rfl
    exact hset.record (h.lt_begun hi') rfl (h.working i e hi') fun _ _ => h.working i e hi'
  | @stamps i e key hi =>
    have hset : (s.set i (.stamped key e)).Sound :=
      h.move hi rfl (.inr rfl) fun _ _ _ heq => by cases heq
    have hi' : (s.gets i).working = some e := by
      rw [hi]
      rfl
    exact hset.record (h.lt_begun hi') rfl (h.working i e hi') fun _ _ => h.working i e hi'
  | @closes i e key hi =>
    have hset : (s.set i (.waiting key e)).Sound :=
      h.move hi rfl (.inl rfl) fun _ _ _ heq => by cases heq
    have hi' : (s.gets i).working = some e := by
      rw [hi]
      rfl
    refine hset.record (h.lt_begun hi') rfl (h.working i e hi') fun j hj => ?_
    -- Only this call was computing the entry, and it is done with it.
    have hold := working_set hi (fun _ heq => by cases heq) hj
    obtain rfl := h.alone j i e hold hi'
    rw [set_self] at hj
    cases hj
  | @returns i e key r hi hdone hresult =>
    refine h.move hi rfl (.inl rfl) fun _ _ _ heq => ?_
    cases heq
    exact ⟨hdone, hresult⟩
  | @forget k _ =>
    refine h.drop rfl rfl rfl fun key e hkey => ?_
    by_cases heq : key = k
    · subst heq
      rw [AList.lookup_erase] at hkey
      cases hkey
    · rwa [AList.lookup_erase_ne heq] at hkey

/-- An entry that is done stays as it is. -/
theorem Step.made_eq (h : s.Step ttl a s') (hs : s.Sound) (hdone : (s.made e).done) :
    s'.made e = s.made e := by
  have hother : ∀ i d, (s.gets i).working = some d → e ≠ d := by
    rintro i d hi rfl
    rw [hs.working i e hi] at hdone
    exact Bool.false_ne_true hdone
  cases h with
  | begins _ _ _ =>
    apply Function.update_of_ne
    rintro rfl
    rw [hs.unmade _ le_rfl] at hdone
    exact Bool.false_ne_true hdone
  | visits _ => exact congrFun visit_made e
  | @computes i d key r hi => exact record_of_ne (hother i d (by rw [hi]; rfl))
  | @stamps i d key hi => exact record_of_ne (hother i d (by rw [hi]; rfl))
  | @closes i d key hi => exact record_of_ne (hother i d (by rw [hi]; rfl))
  | _ => rfl

/-! ## What is served -/

variable (ttl s)

/-- A call of a key made after it was forgotten is served by a computation that began after. -/
def ServesAfterForget : Prop :=
  ∀ key s', s.Step ttl (.forget key) s' → ∀ bs t, Run (Step ttl) Always s' bs t →
    ∀ i e r, s.gets i = .uncalled → t.gets i = .returned key e r → s.begun ≤ e

/-- A call begins a computation of a key. -/
def Begins (i : ℕ) (key : String) (s' : Memo α ε) : Prop :=
  s.gets i = .called key ∧ s.Step ttl (.get i) s' ∧ s'.begun = s.begun + 1

/-- A computation of a key begins before another one is over only when the key was forgotten in
between. -/
def ForgetsBetween : Prop :=
  ∀ key i s', s.Begins ttl i key s' → ∀ bs t, Run (Step ttl) Always s' bs t →
    ∀ j t', t.Begins ttl j key t' → (t.made s.begun).done = false → .forget key ∈ bs

/-- A computation that failed serves no call made after it was over. -/
def DropsErrors : Prop :=
  ∀ d err, (s.made d).done → (s.made d).result = some (.error err) →
    ∀ bs t, Run (Step ttl) Always s bs t →
      ∀ i key e r, s.gets i = .uncalled → t.gets i = .returned key e r → e ≠ d

/-- A call returns no value that was stale when it looked for it. -/
def ServesFresh : Prop :=
  ∀ i key s', s.gets i = .called key → s.Step ttl (.get i) s' → ∀ bs t, Run (Step ttl) Always s' bs t →
    ∀ e r, t.gets i = .returned key e r → (s.made e).done →
      s.now - (s.made e).stamp < ttl.toInt

/-- The table loses a computation under way to nothing but the key being forgotten. -/
def KeepsUnderWay : Prop :=
  ∀ key e, s.entries.lookup key = some e → (s.made e).done = false →
    ∀ a s', s.Step ttl a s' → a ≠ .forget key → s'.entries.lookup key = some e

variable {ttl s} {bs : List MemoAction} {r : Except ε α} {err : ε}

theorem Sound.run (h : s.Sound) (hrun : Run (Step ttl) Always s bs t) : t.Sound :=
  hrun.invariant h fun _ _ _ hu _ hs => hu.step hs

theorem servesAfterForget (ttl : Duration) (s : Memo α ε) : s.ServesAfterForget ttl := by
  intro key s' hforget bs t hrun i e r hi hreturned
  let I : Memo α ε → Prop := fun u => s.begun ≤ u.begun ∧
    (∀ e, u.entries.lookup key = some e → s.begun ≤ e) ∧
      ∀ e, (u.gets i).entry = some (key, e) → s.begun ≤ e
  have hstart : I s' := by
    cases hforget with
    | forget _ =>
      refine ⟨le_rfl, fun e he => ?_, fun e he => ?_⟩
      · dsimp only at he
        rw [AList.lookup_erase] at he
        cases he
      · dsimp only at he
        rw [hi] at he
        cases he
  have hend : I t := by
    refine hrun.invariant hstart fun u a u' ⟨hle, htable, hcall⟩ _ hstep => ?_
    refine ⟨hle.trans hstep.begun_le, fun e he => ?_, fun e he => ?_⟩
    · rcases hstep.lookup_or he with hold | rfl
      · exact htable e hold
      · exact hle
    · rcases hstep.entry_or he with hold | hfinds
      · exact hcall e hold
      · rcases hfinds.lookup_or with hold | rfl
        · exact htable e hold
        · exact hle
  exact hend.2.2 e (by rw [hreturned]; rfl)

theorem forgetsBetween (ttl : Duration) (s : Memo α ε) (hs : s.Sound) : s.ForgetsBetween ttl := by
  rintro key i s' ⟨hi, hstep, hbegun⟩ bs t hrun j t' ⟨hj, hstep', hbegun'⟩ hdone
  obtain ⟨-, rfl⟩ := hstep.begins_of hi hbegun
  obtain ⟨hmissing, -⟩ := hstep'.begins_of hj hbegun'
  have hlookup : ∀ bs t, Run (Step ttl) Always (s.publish i key) bs t → .forget key ∉ bs →
      (t.made s.begun).done = false → t.entries.lookup key = some s.begun := by
    intro bs t hrun
    induction hrun with
    | nil => exact fun _ _ => AList.lookup_insert s.entries
    | @snoc bs a u u' hrun _ hs' ih =>
      intro hnot hdone'
      rw [List.mem_append, not_or, List.mem_singleton] at hnot
      cases hu : (u.made s.begun).done with
      | false => exact hs'.lookup_keep (ih hnot.1 hu) hu (Ne.symm hnot.2)
      | true =>
        have hsound : u.Sound := (hs.publish hi).run hrun
        rw [hs'.made_eq hsound hu, hu] at hdone'
        cases hdone'
  by_contra hnot
  rw [look_eq_underWay.mpr ⟨hlookup bs t hrun hnot hdone, hdone⟩] at hmissing
  cases hmissing

theorem dropsErrors (ttl : Duration) (s : Memo α ε) (hs : s.Sound) : s.DropsErrors ttl := by
  intro d err hdone hresult bs t hrun i key e r hi hreturned
  let I : Memo α ε → Prop := fun u => u.Sound ∧ u.made d = s.made d ∧
    ∀ key e, (u.gets i).entry = some (key, e) → e ≠ d
  have hstart : I s := by
    refine ⟨hs, rfl, fun key e he => ?_⟩
    rw [hi] at he
    cases he
  have hend : I t := by
    refine hrun.invariant hstart fun u a u' ⟨hu, hmade, hcall⟩ _ hstep => ?_
    have hdone' : (u.made d).done := by rwa [hmade]
    refine ⟨hu.step hstep, (hstep.made_eq hu hdone').trans hmade, fun key e he => ?_⟩
    rcases hstep.entry_or he with hold | hfinds
    · exact hcall key e hold
    rintro rfl
    cases hfinds with
    | fresh hlook =>
      have hvalue := (look_eq_fresh hlook).2.1
      rw [hmade, hresult] at hvalue
      cases hvalue
    | underWay hlook =>
      rw [(look_eq_underWay.mp hlook).2] at hdone'
      cases hdone'
    | missing _ =>
      rw [hu.unmade _ le_rfl] at hdone'
      cases hdone'
  exact hend.2.2 key e (by rw [hreturned]; rfl)

/-- What a call finds done is fresh. -/
theorem Finds.fresh_of_done (h : s.Finds ttl key e) (hs : s.Sound) (hdone : (s.made e).done) :
    s.now - (s.made e).stamp < ttl.toInt := by
  cases h with
  | fresh hlook =>
    exact Time.lt_of_sub_lt (look_eq_fresh hlook).2.2.2
  | underWay hlook =>
    rw [(look_eq_underWay.mp hlook).2] at hdone
    cases hdone
  | missing _ =>
    rw [hs.unmade _ le_rfl] at hdone
    cases hdone

theorem servesFresh (ttl : Duration) (s : Memo α ε) (hs : s.Sound) : s.ServesFresh ttl := by
  intro i key s' hi hstep bs t hrun e r hreturned hdone
  obtain ⟨d, hfinds, hentry⟩ := hstep.looked hi
  have hend : (t.gets i).entry = some (key, d) :=
    hrun.invariant hentry fun _ _ _ hu _ hs' => hs'.entry_keep hu
  rw [hreturned] at hend
  cases hend
  exact hfinds.fresh_of_done hs hdone

theorem keepsUnderWay (ttl : Duration) (s : Memo α ε) : s.KeepsUnderWay ttl :=
  fun _ _ hkey hdone _ _ hstep ha => hstep.lookup_keep hkey hdone ha

/-- In whatever order calls, computations, forgetting, pruning and the clock go on, a call returns
what a computation of its key computed, none that began before the key was forgotten, none that
failed before the call and none that was stale; two computations of a key overlap only when it was
forgotten between their starts, and pruning drops none that is under way. -/
theorem memo_serves (ttl : Duration) (now : Time) {as : List MemoAction} {s : Memo α ε}
    (h : Run (Step ttl) Always (start now) as s) :
    (∀ i key e r, s.gets i = .returned key e r →
      (s.made e).key = key ∧ (s.made e).done ∧ (s.made e).result = some r) ∧
    s.ServesAfterForget ttl ∧ s.ForgetsBetween ttl ∧ s.DropsErrors ttl ∧ s.ServesFresh ttl ∧
    s.KeepsUnderWay ttl := by
  have hs : s.Sound := (start_sound now).run h
  refine ⟨fun i key e r hi => ?_, servesAfterForget ttl s, forgetsBetween ttl s hs,
    dropsErrors ttl s hs, servesFresh ttl s hs, keepsUnderWay ttl s⟩
  exact ⟨(hs.known i key e (by rw [hi]; rfl)).2, hs.returned i key e r hi⟩

/-- A call whose key is not in the table computes a value and returns it. -/
theorem memo_serves_computed : ∃ s : Memo ℕ String,
    s.gets 0 = .returned "k" 0 (.ok 42) ∧ s.ServesAfterForget Duration.second ∧
      s.ForgetsBetween Duration.second ∧ s.DropsErrors Duration.second ∧
      s.ServesFresh Duration.second ∧ s.KeepsUnderWay Duration.second := by
  have hstart : Run (Step Duration.second) Always (start 0 : Memo ℕ String) [] (start 0) := .nil
  have hcalled : Run (Step Duration.second) Always (start 0 : Memo ℕ String) [.get 0]
      ((start 0).set 0 (.called "k")) := hstart.snoc trivial (.called rfl)
  have hbegun := hcalled.snoc trivial (.begins (i := 0) rfl rfl rfl)
  have hunlocked := hbegun.snoc trivial (.small (i := 0) rfl (by decide))
  have hcomputed := hunlocked.snoc trivial (.computes (i := 0) (r := .ok 42) rfl)
  have hstamped := hcomputed.snoc trivial (.stamps (i := 0) rfl)
  have hclosed := hstamped.snoc trivial (.closes (i := 0) rfl)
  have hreturned := hclosed.snoc trivial (.returns (i := 0) rfl rfl rfl)
  exact ⟨_, rfl, (memo_serves Duration.second 0 hreturned).2⟩

end Memo

end SuperAgent.Platform
