import SuperAgent.Core.Run
import SuperAgent.Keys.Store
import SuperAgent.Platform.Auth
import SuperAgent.Platform.Service

/-!
# The registry

One service for each wallet, built on first use. A call resolves its wallet's
key, and under that key's id finds a service, waits for one that is being built
or builds it itself. Keys are enrolled and deleted in the key store meanwhile,
and nothing of that reaches the services that are there.
-/

namespace SuperAgent.Platform

open Keys (Key Store)

/-- A service with the key its venue connection was built from. -/
structure WalletService where
  number : Nat
  key : Key

/-- Why a call has no service. -/
inductive GetError
  | invalid (why : String)
  | noKey
  | connect
  | canceled

/-- Where a call of `Get` is. -/
inductive GetStage
  | uncalled
  | called (address strategy : String)
  /-- It has its key, and is about to look for the service. -/
  | resolved (k : Key)
  /-- It waits until another call is done with connecting. -/
  | waiting (k : Key) (j : Nat)
  | connecting (k : Key)
  | returned (r : Except GetError WalletService)

/-- The key a call goes by. -/
def GetStage.key : GetStage → Option Key
  | .resolved k => some k
  | .waiting k _ => some k
  | .connecting k => some k
  | _ => none

/-- The registry over its key store, with its calls. -/
structure Registry where
  store : Store
  byKey : String → Option WalletService
  /-- The call that connects, by the id of its key. -/
  pending : String → Option Nat
  gets : Nat → GetStage
  built : Nat

/-- What happens next. -/
inductive RegistryAction
  | get (i : Nat)
  | put (k : Key)
  | delete (address strategy : String)

/-- A key as enrollment stores it. -/
def Enrolled (k : Key) : Prop :=
  isAddress (trimSpace k.address) ∧ (trimSpace k.strategy = "" ∨ known (trimSpace k.strategy))

/-- An enrolled key is stored under an address of small letters, with no other slash in its id. -/
theorem Enrolled.stored {k : Key} (h : Enrolled k) : Key.Stored
    { k with address := Keys.normalize k.address, strategy := trimSpace k.strategy } := by
  obtain ⟨haddress, hstrategy⟩ := h
  obtain ⟨htrim, hlower, hslash⟩ := toLower_of_isAddress haddress
  refine ⟨?_, hslash, ?_⟩
  · change toLower (trimSpace (toLower (trimSpace k.address))) = toLower (trimSpace k.address)
    rw [htrim, hlower]
  · change '/' ∉ (trimSpace (trimSpace k.strategy)).toList
    rcases hstrategy with hempty | hknown
    · rw [hempty]
      decide
    · have hcatalog : ∀ s ∈ catalog, '/' ∉ (trimSpace s.id).toList := by decide
      obtain ⟨s, hs, heq⟩ := List.any_eq_true.mp hknown
      rw [← of_decide_eq_true heq]
      exact hcatalog s hs

namespace Registry

/-- A registry nobody has called, over a store without keys. -/
def start : Registry := ⟨[], fun _ => none, fun _ => none, fun _ => .uncalled, 0⟩

variable (s : Registry)

/-- A call goes on. -/
def set (i : Nat) (stage : GetStage) : Registry :=
  { s with gets := Function.update s.gets i stage }

def setPending (id : String) (i : Option Nat) : Registry :=
  { s with pending := Function.update s.pending id i }

/-- A call has built the service of an id, which is there from now on. -/
def serve (i : Nat) (id : String) (svc : WalletService) : Registry :=
  { (s.set i (.returned (.ok svc))).setPending id none with
    byKey := Function.update s.byKey id (some svc)
    built := s.built + 1 }

/-- One section of a call, or a change of the key store. -/
inductive Step (s : Registry) : RegistryAction → Registry → Prop
  | called {i : Nat} {address strategy : String} : s.gets i = .uncalled →
    toLower (trimSpace address) ≠ "" → trimSpace strategy = "" ∨ known (trimSpace strategy) →
    Step s (.get i) (s.set i (.called (toLower (trimSpace address)) (trimSpace strategy)))
  | unnamed {i : Nat} {address : String} : s.gets i = .uncalled → toLower (trimSpace address) = "" →
    Step s (.get i) (s.set i (.returned (.error (.invalid "platform: invalid request: address is required"))))
  | unknown {i : Nat} {strategy : String} : s.gets i = .uncalled → trimSpace strategy ≠ "" →
    ¬ known (trimSpace strategy) →
    Step s (.get i)
      (s.set i (.returned (.error (.invalid
        ("platform: invalid request: unknown strategy " ++ (trimSpace strategy).quote)))))
  | resolves {i : Nat} {address strategy : String} {k : Key} : s.gets i = .called address strategy →
    s.store.resolve address strategy = some k → Step s (.get i) (s.set i (.resolved k))
  | noKey {i : Nat} {address strategy : String} : s.gets i = .called address strategy →
    s.store.resolve address strategy = none →
    Step s (.get i) (s.set i (.returned (.error .noKey)))
  | found {i : Nat} {k : Key} {svc : WalletService} : s.gets i = .resolved k →
    s.byKey k.ID = some svc → Step s (.get i) (s.set i (.returned (.ok svc)))
  | waits {i j : Nat} {k : Key} : s.gets i = .resolved k → s.byKey k.ID = none →
    s.pending k.ID = some j → Step s (.get i) (s.set i (.waiting k j))
  | wakes {i j : Nat} {k : Key} : s.gets i = .waiting k j → (∀ l, s.gets j ≠ .connecting l) →
    Step s (.get i) (s.set i (.resolved k))
  | canceled {i j : Nat} {k : Key} : s.gets i = .waiting k j →
    Step s (.get i) (s.set i (.returned (.error .canceled)))
  | connects {i : Nat} {k : Key} : s.gets i = .resolved k → s.byKey k.ID = none →
    s.pending k.ID = none →
    Step s (.get i) ((s.set i (.connecting k)).setPending k.ID (some i))
  | connected {i : Nat} {k : Key} : s.gets i = .connecting k →
    Step s (.get i) (s.serve i k.ID ⟨s.built, k⟩)
  | unconnected {i : Nat} {k : Key} : s.gets i = .connecting k →
    Step s (.get i) ((s.set i (.returned (.error .connect))).setPending k.ID none)
  | put {k : Key} : Enrolled k → Step s (.put k) { s with store := s.store.put k }
  | delete {address strategy : String} :
    Step s (.delete address strategy) { s with store := s.store.delete address strategy }

/-! ## Keys in use -/

variable {s} {s' t : Registry} {a : RegistryAction} {i j : Nat} {k l : Key} {stage : GetStage}
  {store : Store}

@[simp] theorem set_self : (s.set i stage).gets i = stage := Function.update_self _ _ _

@[simp] theorem set_of_ne (h : j ≠ i) : (s.set i stage).gets j = s.gets j :=
  Function.update_of_ne h _ _

theorem setPending_self {id : String} {o : Option Nat} : (s.setPending id o).pending id = o :=
  Function.update_self _ _ _

theorem setPending_of_ne {id id' : String} {o : Option Nat} (h : id' ≠ id) :
    (s.setPending id o).pending id' = s.pending id' := Function.update_of_ne h _ _

@[simp] theorem setPending_gets {id : String} {o : Option Nat} :
    (s.setPending id o).gets = s.gets := rfl

@[simp] theorem setPending_byKey {id : String} {o : Option Nat} :
    (s.setPending id o).byKey = s.byKey := rfl

theorem serve_pending {id : String} {svc : WalletService} : (s.serve i id svc).pending =
    ((s.set i (.returned (.ok svc))).setPending id none).pending := rfl

theorem serve_byKey_self {id : String} {svc : WalletService} :
    (s.serve i id svc).byKey id = some svc := Function.update_self _ _ _

theorem serve_byKey_of_ne {id id' : String} {svc : WalletService} (h : id' ≠ id) :
    (s.serve i id svc).byKey id' = s.byKey id' := Function.update_of_ne h _ _

@[simp] theorem serve_gets {id : String} {svc : WalletService} :
    (s.serve i id svc).gets = (s.set i (.returned (.ok svc))).gets := rfl

/-- A key that a call goes by or that a service was built from. -/
def Uses (s : Registry) (k : Key) : Prop :=
  (∃ i, (s.gets i).key = some k) ∨ ∃ id svc, s.byKey id = some svc ∧ svc.key = k

/-- The keys in use are the ones their wallets resolve to in a store, if to any. -/
def Settled (s : Registry) (store : Store) : Prop :=
  ∀ k, s.Uses k → ∀ strategy l, store.resolve k.address strategy = some l → l = k

/-- No change of the key store gives a wallet another key than the one in use for it. -/
def Steady (s : Registry) : RegistryAction → Prop
  | .put k => s.Settled (s.store.put k)
  | .delete address strategy => s.Settled (s.store.delete address strategy)
  | .get _ => True

/-- Every wallet has one key in use, the one it resolves to. -/
structure OneKey (s : Registry) : Prop where
  sound : s.store.Sound
  stored : ∀ k, s.Uses k → k.Stored
  named : ∀ id svc, s.byKey id = some svc → svc.key.ID = id
  current : s.Settled s.store
  same : ∀ k l, s.Uses k → s.Uses l → k.address = l.address → k = l

theorem start_oneKey : start.OneKey := by
  have hnone : ∀ k, ¬ start.Uses k := by
    rintro k (⟨i, hi⟩ | ⟨id, svc, hsvc, -⟩)
    · cases hi
    · cases hsvc
  exact ⟨nofun, fun k hk => absurd hk (hnone k), nofun, fun k hk => absurd hk (hnone k),
    fun k _ hk => absurd hk (hnone k)⟩

/-- A call that goes on goes by its own key, or by none. -/
theorem uses_set (h : (s.set i stage).Uses k) : s.Uses k ∨ stage.key = some k := by
  rcases h with ⟨j, hj⟩ | hsvc
  · by_cases hji : j = i
    · subst hji
      rw [set_self] at hj
      exact .inr hj
    · rw [set_of_ne hji] at hj
      exact .inl (.inl ⟨j, hj⟩)
  · exact .inl (.inr hsvc)

/-- With the store as it is and no other key in use, nothing changes. -/
theorem OneKey.less (h : s.OneKey) (hstore : s'.store = s.store)
    (huses : ∀ k, s'.Uses k → s.Uses k)
    (hnamed : ∀ id svc, s'.byKey id = some svc → svc.key.ID = id) : s'.OneKey := by
  refine ⟨hstore ▸ h.sound, fun k hk => h.stored k (huses k hk), hnamed, fun k hk => ?_,
    fun k l hk hl => h.same k l (huses k hk) (huses l hl)⟩
  rw [hstore]
  exact h.current k (huses k hk)

theorem OneKey.set (h : s.OneKey) (hkey : ∀ k, stage.key = some k → s.Uses k) :
    (s.set i stage).OneKey :=
  h.less rfl (fun k hk => (uses_set hk).elim id (hkey k)) h.named

/-- A call resolves its key. -/
theorem OneKey.resolves {address strategy : String} (h : s.OneKey)
    (hk : s.store.resolve address strategy = some k) : (s.set i (.resolved k)).OneKey := by
  obtain ⟨hmem, haddress⟩ := h.sound.of_resolve hk
  have hstored : k.Stored := h.sound k hmem
  have hnormal : Keys.normalize k.address = Keys.normalize address := hstored.normal.trans haddress
  have huses : ∀ l, (s.set i (.resolved k)).Uses l → s.Uses l ∨ l = k := fun l hl =>
    (uses_set hl).imp_right fun heq => (Option.some.inj heq).symm
  have hsame : ∀ l, s.Uses l → l.address = k.address → l = k := by
    intro l hl hl'
    have hresolve : s.store.resolve l.address strategy = some k := by
      rw [hl', Store.resolve_congr hnormal]
      exact hk
    exact (h.current l hl strategy k hresolve).symm
  refine ⟨h.sound, fun l hl => ?_, h.named, fun l hl strategy' m hm => ?_, fun l m hl hm heq => ?_⟩
  · rcases huses l hl with hl | rfl
    · exact h.stored l hl
    · exact hstored
  · rcases huses l hl with hl | rfl
    · exact h.current l hl strategy' m hm
    · have hresolve : s.store.resolve l.address strategy' = s.store.resolve address strategy :=
        Store.resolve_congr hnormal
      exact Option.some.inj (hm.symm.trans (hresolve.trans hk))
  · rcases huses l hl with hold | rfl
    · rcases huses m hm with hold' | rfl
      · exact h.same l m hold hold' heq
      · exact hsame l hold heq
    · rcases huses m hm with hold' | rfl
      · exact (hsame m hold' heq.symm).symm
      · rfl

theorem uses_of_get (hi : s.gets i = stage) (hk : stage.key = some k) : s.Uses k :=
  .inl ⟨i, hi ▸ hk⟩

/-- A call that has connected leaves a service under its key. -/
theorem OneKey.serve {svc : WalletService} {id : String} (h : s.OneKey) (hk : s.Uses svc.key)
    (hid : svc.key.ID = id) : (s.serve i id svc).OneKey := by
  refine h.less rfl (fun l hl => ?_) (fun id' svc' hsvc => ?_)
  · rcases hl with ⟨j, hl⟩ | ⟨id', svc', hsvc, hkey⟩
    · have hset : (s.set i (.returned (.ok svc))).Uses l := .inl ⟨j, hl⟩
      exact (uses_set hset).resolve_right nofun
    · by_cases heq : id' = id
      · rw [heq, serve_byKey_self] at hsvc
        obtain rfl := Option.some.inj hsvc
        exact hkey ▸ hk
      · rw [serve_byKey_of_ne heq] at hsvc
        exact .inr ⟨id', svc', hsvc, hkey⟩
  · by_cases heq : id' = id
    · rw [heq, serve_byKey_self] at hsvc
      obtain rfl := Option.some.inj hsvc
      exact hid.trans heq.symm
    · rw [serve_byKey_of_ne heq] at hsvc
      exact h.named id' svc' hsvc

theorem OneKey.setPending {id : String} {o : Option Nat} (h : s.OneKey) :
    (s.setPending id o).OneKey := ⟨h.sound, h.stored, h.named, h.current, h.same⟩

theorem OneKey.step (h : s.OneKey) (hok : s.Steady a) (hs : s.Step a s') : s'.OneKey := by
  cases hs with
  | called _ _ _ => exact h.set nofun
  | unnamed _ _ => exact h.set nofun
  | unknown _ _ _ => exact h.set nofun
  | resolves _ hk => exact h.resolves hk
  | noKey _ _ => exact h.set nofun
  | found _ _ => exact h.set nofun
  | waits hi _ _ => exact h.set fun l hl => uses_of_get hi hl
  | wakes hi _ => exact h.set fun l hl => uses_of_get hi hl
  | canceled _ => exact h.set nofun
  | @connects i k hi _ _ =>
    have hset : (s.set i (.connecting k)).OneKey := h.set fun l hl => uses_of_get hi hl
    exact hset.setPending
  | connected hi => exact h.serve (uses_of_get hi rfl) rfl
  | @unconnected i k _ =>
    have hset : (s.set i (.returned (.error .connect))).OneKey := h.set nofun
    exact hset.setPending
  | put hk => exact ⟨h.sound.put hk.stored, h.stored, h.named, hok, h.same⟩
  | delete => exact ⟨h.sound.delete, h.stored, h.named, hok, h.same⟩

/-! ## Services that are there -/

/-- Under an id one call connects at a time and only when there is no service, and every service that
was handed out is still there. -/
structure Exclusive (s : Registry) : Prop where
  pend : ∀ i k, s.gets i = .connecting k → s.pending k.ID = some i
  unbuilt : ∀ id i, s.pending id = some i → s.byKey id = none
  handed : ∀ i svc, s.gets i = .returned (.ok svc) → s.byKey svc.key.ID = some svc

theorem start_exclusive : start.Exclusive := ⟨nofun, nofun, nofun⟩

theorem Exclusive.set (h : s.Exclusive) (hstage : ∀ k, stage ≠ .connecting k)
    (hhanded : ∀ svc, stage = .returned (.ok svc) → s.byKey svc.key.ID = some svc) :
    (s.set i stage).Exclusive := by
  refine ⟨fun j k hj => ?_, h.unbuilt, fun j svc hj => ?_⟩
  · by_cases hji : j = i
    · subst hji
      rw [set_self] at hj
      exact absurd hj (hstage k)
    · rw [set_of_ne hji] at hj
      exact h.pend j k hj
  · by_cases hji : j = i
    · subst hji
      rw [set_self] at hj
      exact hhanded svc hj
    · rw [set_of_ne hji] at hj
      exact h.handed j svc hj

/-- A call begins to connect under an id. -/
theorem Exclusive.connects {id : String} (h : s.Exclusive) (hid : k.ID = id)
    (hnone : s.byKey id = none) (hpending : s.pending id = none) :
    ((s.set i (.connecting k)).setPending id (some i)).Exclusive := by
  refine ⟨fun j l hj => ?_, fun id' j hj => ?_, fun j svc hj => ?_⟩
  · rw [setPending_gets] at hj
    by_cases hji : j = i
    · subst hji
      rw [set_self] at hj
      obtain rfl := GetStage.connecting.inj hj
      rw [hid, setPending_self]
    · rw [set_of_ne hji] at hj
      have hold := h.pend j l hj
      have hne : l.ID ≠ id := fun heq => by
        rw [heq, hpending] at hold
        cases hold
      rw [setPending_of_ne hne]
      exact hold
  · rw [setPending_byKey]
    by_cases heq : id' = id
    · exact heq ▸ hnone
    · rw [setPending_of_ne heq] at hj
      exact h.unbuilt id' j hj
  · rw [setPending_gets] at hj
    rw [setPending_byKey]
    by_cases hji : j = i
    · subst hji
      rw [set_self] at hj
      cases hj
    · rw [set_of_ne hji] at hj
      exact h.handed j svc hj

/-- When a call is done with connecting under an id, the others still connect under theirs. -/
theorem Exclusive.pend_done {id : String} {r : Except GetError WalletService} (h : s.Exclusive)
    (hi : s.gets i = .connecting k) (hid : k.ID = id) {j : Nat} {l : Key}
    (hj : (s.set i (.returned r)).gets j = .connecting l) :
    ((s.set i (.returned r)).setPending id none).pending l.ID = some j := by
  have hji : j ≠ i := by
    rintro rfl
    rw [set_self] at hj
    cases hj
  rw [set_of_ne hji] at hj
  have hold := h.pend j l hj
  have hne : l.ID ≠ id := by
    intro heq
    rw [heq, ← hid, h.pend i k hi] at hold
    exact hji (Option.some.inj hold).symm
  rw [setPending_of_ne hne]
  exact hold

theorem ne_of_pending {id id' : String} (h : (s.setPending id none).pending id' = some j) :
    id' ≠ id := by
  rintro rfl
  rw [setPending_self] at h
  cases h

/-- A call is refused, and returns. -/
theorem Exclusive.done {id : String} {r : Except GetError WalletService} (h : s.Exclusive)
    (hi : s.gets i = .connecting k) (hid : k.ID = id) (hr : ∀ svc, r ≠ .ok svc) :
    ((s.set i (.returned r)).setPending id none).Exclusive := by
  have hset : (s.set i (.returned r)).Exclusive :=
    h.set nofun fun svc hsvc => absurd (GetStage.returned.inj hsvc) (hr svc)
  refine ⟨fun j l hj => ?_, fun id' j hj => ?_, fun j svc hj => ?_⟩
  · rw [setPending_gets] at hj
    exact h.pend_done hi hid hj
  · rw [setPending_byKey]
    rw [setPending_of_ne (ne_of_pending hj)] at hj
    exact h.unbuilt id' j hj
  · rw [setPending_gets] at hj
    rw [setPending_byKey]
    exact hset.handed j svc hj

/-- A call leaves a service where there was none. -/
theorem Exclusive.serve {id : String} {svc : WalletService} (h : s.Exclusive)
    (hi : s.gets i = .connecting k) (hid : k.ID = id) (hsvc : svc.key.ID = id) :
    (s.serve i id svc).Exclusive := by
  have hnone : s.byKey id = none := h.unbuilt id i (hid ▸ h.pend i k hi)
  refine ⟨fun j l hj => ?_, fun id' j hj => ?_, fun j svc' hj => ?_⟩
  · rw [serve_gets] at hj
    rw [serve_pending]
    exact h.pend_done hi hid hj
  · rw [serve_pending] at hj
    have hne := ne_of_pending hj
    rw [setPending_of_ne hne] at hj
    rw [serve_byKey_of_ne hne]
    exact h.unbuilt id' j hj
  · rw [serve_gets] at hj
    by_cases hji : j = i
    · subst hji
      rw [set_self] at hj
      obtain rfl := Except.ok.inj (GetStage.returned.inj hj)
      rw [hsvc, serve_byKey_self]
    · rw [set_of_ne hji] at hj
      have hold := h.handed j svc' hj
      have hne : svc'.key.ID ≠ id := fun heq => by
        rw [heq, hnone] at hold
        cases hold
      rw [serve_byKey_of_ne hne]
      exact hold

theorem Exclusive.step (h : s.Exclusive) (hk : s.OneKey) (hs : s.Step a s') : s'.Exclusive := by
  cases hs with
  | called _ _ _ => exact h.set nofun nofun
  | unnamed _ _ => exact h.set nofun nofun
  | unknown _ _ _ => exact h.set nofun nofun
  | resolves _ _ => exact h.set nofun nofun
  | noKey _ _ => exact h.set nofun nofun
  | @found i k svc _ hsvc =>
    refine h.set nofun fun svc' heq => ?_
    obtain rfl := Except.ok.inj (GetStage.returned.inj heq)
    rw [hk.named _ _ hsvc, hsvc]
  | waits _ _ _ => exact h.set nofun nofun
  | wakes _ _ => exact h.set nofun nofun
  | canceled _ => exact h.set nofun nofun
  | connects _ hnone hpending => exact h.connects rfl hnone hpending
  | connected hi => exact h.serve hi rfl rfl
  | unconnected hi => exact h.done hi rfl nofun
  | put _ => exact ⟨h.pend, h.unbuilt, h.handed⟩
  | delete => exact ⟨h.pend, h.unbuilt, h.handed⟩

/-! ## Calls that start later -/

/-- A call goes by a key, or has returned a service built from it. -/
def GoesBy (stage : GetStage) (k : Key) : Prop :=
  stage.key = some k ∨ ∃ svc, stage = .returned (.ok svc) ∧ svc.key = k

/-- A service that is found under a key's id was built from that key. -/
theorem OneKey.key_eq {svc : WalletService} (h : s.OneKey) (hk : s.Uses k)
    (hsvc : s.byKey k.ID = some svc) : svc.key = k := by
  have huses : s.Uses svc.key := .inr ⟨_, svc, hsvc, rfl⟩
  have haddress := (h.stored _ huses).address_of_id (h.named _ svc hsvc)
  exact h.same _ _ huses hk (haddress.trans (h.stored k hk).normal)

/-- The key a call goes by is the one it went by before, or the one it has just resolved. -/
theorem OneKey.goesBy (h : s.OneKey) (hs : s.Step a s') (hk : GoesBy (s'.gets i) k) :
    GoesBy (s.gets i) k ∨
      ∃ address strategy, s.gets i = .called address strategy ∧
        s.store.resolve address strategy = some k := by
  have hset : ∀ {j stage}, GoesBy ((s.set j stage).gets i) k → GoesBy (s.gets i) k ∨
      i = j ∧ GoesBy stage k := by
    intro j stage hgoes
    by_cases hij : i = j
    · subst hij
      rw [set_self] at hgoes
      exact .inr ⟨rfl, hgoes⟩
    · rw [set_of_ne hij] at hgoes
      exact .inl hgoes
  cases hs with
  | called _ _ _ | unnamed _ _ | unknown _ _ _ | noKey _ _ | canceled _ =>
    refine .inl ((hset hk).resolve_right ?_)
    rintro ⟨-, hkey | ⟨svc, hsvc, -⟩⟩
    · cases hkey
    · cases hsvc
  | @resolves j address strategy l hj hl =>
    rcases hset hk with hold | ⟨rfl, hkey | ⟨svc, hsvc, -⟩⟩
    · exact .inl hold
    · exact .inr ⟨address, strategy, hj, hl.trans hkey⟩
    · cases hsvc
  | @found j l svc hj hl =>
    rcases hset hk with hold | ⟨rfl, hkey | ⟨svc', hsvc, hkey⟩⟩
    · exact .inl hold
    · cases hkey
    · obtain rfl := Except.ok.inj (GetStage.returned.inj hsvc)
      have heq := h.key_eq (uses_of_get hj rfl) hl
      exact .inl (.inl (by rw [hj, ← hkey, heq, GetStage.key]))
  | @waits j j' l hj _ _ =>
    rcases hset hk with hold | ⟨rfl, hkey | ⟨svc, hsvc, -⟩⟩
    · exact .inl hold
    · exact .inl (.inl (hj ▸ hkey))
    · cases hsvc
  | @wakes j j' l hj _ =>
    rcases hset hk with hold | ⟨rfl, hkey | ⟨svc, hsvc, -⟩⟩
    · exact .inl hold
    · exact .inl (.inl (hj ▸ hkey))
    · cases hsvc
  | @connects j l hj _ _ =>
    rw [setPending_gets] at hk
    rcases hset hk with hold | ⟨rfl, hkey | ⟨svc, hsvc, -⟩⟩
    · exact .inl hold
    · exact .inl (.inl (hj ▸ hkey))
    · cases hsvc
  | @connected j l hj =>
    rw [serve_gets] at hk
    rcases hset hk with hold | ⟨rfl, hkey | ⟨svc, hsvc, hkey⟩⟩
    · exact .inl hold
    · cases hkey
    · obtain rfl := Except.ok.inj (GetStage.returned.inj hsvc)
      exact .inl (.inl (hj ▸ congrArg some hkey))
  | unconnected _ =>
    rw [setPending_gets] at hk
    refine .inl ((hset hk).resolve_right ?_)
    rintro ⟨-, hkey | ⟨svc, hsvc, -⟩⟩
    · cases hkey
    · cases hsvc
  | put _ => exact .inl hk
  | delete => exact .inl hk

theorem steady_run {as : List RegistryAction} (h : Run Step Steady start as s) :
    s.OneKey ∧ s.Exclusive := by
  refine h.invariant (I := fun s => s.OneKey ∧ s.Exclusive) ⟨start_oneKey, start_exclusive⟩ ?_
  rintro s a s' ⟨hk, he⟩ hok hs
  exact ⟨hk.step hok hs, he.step hk hs⟩

/-- During a run a call's wallet resolved to a key. -/
def ResolvedTo (s : Registry) (i : Nat) (bs : List RegistryAction) (t : Registry) (k : Key) : Prop :=
  ∃ cs ds u address strategy, bs = cs ++ ds ∧ Run Step Steady s cs u ∧ Run Step Steady u ds t ∧
    u.gets i = .called address strategy ∧ u.store.resolve address strategy = some k

/-- A call that starts later goes by a key its wallet resolved to since. -/
theorem resolved_since {bs : List RegistryAction} (hs : s.OneKey) (hi : s.gets i = .uncalled)
    (h : Run Step Steady s bs t) : t.OneKey ∧ ∀ k, GoesBy (t.gets i) k → ResolvedTo s i bs t k := by
  induction h with
  | nil =>
    refine ⟨hs, fun k hk => ?_⟩
    rw [hi] at hk
    rcases hk with hkey | ⟨svc, hsvc, -⟩
    · cases hkey
    · cases hsvc
  | @snoc bs a t t' hrun hok hstep ih =>
    obtain ⟨ht, hknown⟩ := ih
    refine ⟨ht.step hok hstep, fun k hk => ?_⟩
    rcases ht.goesBy hstep hk with hold | ⟨address, strategy, hcalled, hresolve⟩
    · obtain ⟨cs, ds, u, address, strategy, rfl, hcs, hds, hcalled, hresolve⟩ := hknown k hold
      exact ⟨cs, ds ++ [a], u, address, strategy, List.append_assoc _ _ _, hcs, hds.snoc hok hstep,
        hcalled, hresolve⟩
    · exact ⟨bs, [a], t, address, strategy, rfl, hrun, Run.nil.snoc hok hstep, hcalled, hresolve⟩

/-- A wallet has one service at most, of the key it resolves to when it is called for, and none
without a key. -/
theorem one_service {as : List RegistryAction} (h : Run Step Steady start as s) :
    (∀ i j svc svc', s.gets i = .returned (.ok svc) → s.gets j = .returned (.ok svc') →
      svc.key.address = svc'.key.address → svc = svc') ∧
    (∀ i bs t svc, s.gets i = .uncalled → Run Step Steady s bs t →
      t.gets i = .returned (.ok svc) → ResolvedTo s i bs t svc.key) ∧
    ∀ i address strategy s', s.gets i = .called address strategy →
      (∀ k ∈ s.store, k.address ≠ Keys.normalize address) → s.Step (.get i) s' →
      s'.gets i = .returned (.error .noKey) := by
  obtain ⟨hk, he⟩ := steady_run h
  refine ⟨fun i j svc svc' hi hj haddress => ?_, fun i bs t svc hi hrun ht => ?_,
    fun i address strategy s' hi hnone hs => ?_⟩
  · have hsvc := he.handed i svc hi
    have hsvc' := he.handed j svc' hj
    have hsame : svc.key = svc'.key :=
      hk.same _ _ (.inr ⟨_, svc, hsvc, rfl⟩) (.inr ⟨_, svc', hsvc', rfl⟩) haddress
    rw [hsame, hsvc'] at hsvc
    exact (Option.some.inj hsvc).symm
  · exact (resolved_since hk hi hrun).2 svc.key (.inr ⟨svc, ht, rfl⟩)
  · have hunresolved : s.store.resolve address strategy = none := by
      cases hresolve : s.store.resolve address strategy with
      | none => rfl
      | some k =>
        obtain ⟨hmem, haddress⟩ := hk.sound.of_resolve hresolve
        exact absurd haddress (hnone k hmem)
    cases hs with
    | @noKey _ _ _ _ _ => exact set_self
    | resolves hi' hresolve =>
      obtain ⟨rfl, rfl⟩ := GetStage.called.inj (hi.symm.trans hi')
      rw [hunresolved] at hresolve
      cases hresolve
    | called hi' _ _ | unnamed hi' _ | unknown hi' _ _ | found hi' _ | waits hi' _ _ | wakes hi' _
    | canceled hi' | connects hi' _ _ | connected hi' | unconnected hi' =>
      rw [hi] at hi'
      cases hi'

/-! ## Runs of single calls -/

variable {address : String} {ok : Registry → RegistryAction → Prop}

/-- A call for a wallet resolves to a key. -/
theorem resolves_run (hok : ∀ t i, ok t (.get i)) (hi : s.gets i = .uncalled)
    (haddress : toLower (trimSpace address) ≠ "")
    (hk : s.store.resolve (toLower (trimSpace address)) (trimSpace "") = some k) :
    ∃ as t, Run Step ok s as t ∧ t.gets i = .resolved k ∧ (∀ j ≠ i, t.gets j = s.gets j) ∧
      t.store = s.store ∧ t.byKey = s.byKey ∧ t.pending = s.pending ∧ t.built = s.built := by
  have hcalled : s.Step (.get i) (s.set i (.called (toLower (trimSpace address)) (trimSpace ""))) :=
    .called hi haddress (.inl (by decide))
  generalize ht : s.set i (.called (toLower (trimSpace address)) (trimSpace "")) = t at hcalled
  have hgets : t.gets i = .called (toLower (trimSpace address)) (trimSpace "") := ht ▸ set_self
  have hstore : t.store = s.store := ht ▸ rfl
  have hresolved : t.Step (.get i) (t.set i (.resolved k)) := .resolves hgets (hstore ▸ hk)
  refine ⟨_, _, (Run.nil.snoc (hok _ _) hcalled).snoc (hok _ _) hresolved, set_self,
    fun j hji => ?_, hstore, ht ▸ rfl, ht ▸ rfl, ht ▸ rfl⟩
  rw [set_of_ne hji, ← ht, set_of_ne hji]

/-- A call for a wallet whose key has a service gets that service. -/
theorem finds_run {svc : WalletService} (hok : ∀ t i, ok t (.get i)) (hi : s.gets i = .uncalled)
    (haddress : toLower (trimSpace address) ≠ "")
    (hk : s.store.resolve (toLower (trimSpace address)) (trimSpace "") = some k)
    (hsvc : s.byKey k.ID = some svc) :
    ∃ as t, Run Step ok s as t ∧ t.gets i = .returned (.ok svc) ∧ (∀ j ≠ i, t.gets j = s.gets j) ∧
      t.store = s.store := by
  obtain ⟨as, t, hrun, hgets, hother, hstore, hbyKey, -, -⟩ := resolves_run hok hi haddress hk
  refine ⟨_, _, hrun.snoc (hok _ _) (.found hgets (hbyKey ▸ hsvc)), set_self, fun j hji => ?_, hstore⟩
  rw [set_of_ne hji, hother j hji]

/-- A call for a wallet whose key has no service builds it. -/
theorem builds_run (hok : ∀ t i, ok t (.get i)) (hi : s.gets i = .uncalled)
    (haddress : toLower (trimSpace address) ≠ "")
    (hk : s.store.resolve (toLower (trimSpace address)) (trimSpace "") = some k)
    (hnone : s.byKey k.ID = none) (hpending : s.pending k.ID = none) :
    ∃ as t, Run Step ok s as t ∧ t.gets i = .returned (.ok ⟨s.built, k⟩) ∧
      (∀ j ≠ i, t.gets j = s.gets j) ∧ t.store = s.store ∧ t.byKey k.ID = some ⟨s.built, k⟩ ∧
      (∀ id ≠ k.ID, t.byKey id = s.byKey id) ∧ (∀ id ≠ k.ID, t.pending id = s.pending id) ∧
      t.built = s.built + 1 := by
  obtain ⟨as, t, hrun, hgets, hother, hstore, hbyKey, hpend, hbuilt⟩ :=
    resolves_run hok hi haddress hk
  have hconnects := Step.connects hgets (hbyKey ▸ hnone) (hpend ▸ hpending)
  generalize hu : (t.set i (.connecting k)).setPending k.ID (some i) = u at hconnects
  have hconnecting : u.gets i = .connecting k := by rw [← hu, setPending_gets, set_self]
  have huBuilt : u.built = s.built := hu ▸ hbuilt
  have hconnected := Step.connected hconnecting
  rw [huBuilt] at hconnected
  refine ⟨_, _, (hrun.snoc (hok _ _) hconnects).snoc (hok _ _) hconnected, ?_, fun j hji => ?_,
    hu ▸ hstore, serve_byKey_self, fun id hid => ?_, fun id hid => ?_, ?_⟩
  · rw [serve_gets, set_self]
  · rw [serve_gets, set_of_ne hji, ← hu, setPending_gets, set_of_ne hji, hother j hji]
  · rw [serve_byKey_of_ne hid, ← hu, setPending_byKey]
    exact congrFun hbyKey id
  · rw [serve_pending, setPending_of_ne hid]
    change u.pending id = s.pending id
    rw [← hu, setPending_of_ne hid]
    exact congrFun hpend id
  · exact congrArg (· + 1) huBuilt

/-- A key of one wallet. -/
def aKeyFor (strategy label : String) : Key :=
  ⟨"0x00000000000000000000000000000000000000aa", strategy, label, [], label, 0, 0, "", false, 0⟩

theorem aKeyFor_enrolled (label : String) :
    Enrolled (aKeyFor "" label) ∧ Enrolled (aKeyFor "rsi" label) := by
  have haddress : isAddress (trimSpace "0x00000000000000000000000000000000000000aa") = true := by
    decide +kernel
  have hwide : trimSpace "" = "" := by decide
  have hknown : known (trimSpace "rsi") = true := by decide
  exact ⟨⟨haddress, .inl hwide⟩, ⟨haddress, .inr hknown⟩⟩

theorem aKeyFor_named : toLower (trimSpace "0x00000000000000000000000000000000000000aa") ≠ "" := by
  decide +kernel

/-- With its key, one call builds the service of a wallet and the next call finds it. -/
theorem one_service_called : ∃ as s bs t, Run Step Steady start as s ∧ Run Step Steady s bs t ∧
    s.gets 0 = .returned (.ok ⟨0, aKeyFor "" "first"⟩) ∧ s.gets 1 = .uncalled ∧
      t.gets 1 = .returned (.ok ⟨0, aKeyFor "" "first"⟩) ∧
      ResolvedTo s 1 bs t (aKeyFor "" "first") := by
  have hput : start.Step (.put (aKeyFor "" "first"))
      { start with store := start.store.put (aKeyFor "" "first") } := .put (aKeyFor_enrolled _).1
  have hget : ∀ (t : Registry) (i : Nat), Steady t (.get i) := fun _ _ => trivial
  have hsteady : start.Steady (.put (aKeyFor "" "first")) := by
    rintro k (⟨i, hi⟩ | ⟨id, svc, hsvc, -⟩)
    · cases hi
    · cases hsvc
  have hresolve : Store.resolve (Store.put [] (aKeyFor "" "first"))
      (toLower (trimSpace "0x00000000000000000000000000000000000000aa")) (trimSpace "") =
        some (aKeyFor "" "first") := by decide +kernel
  generalize hs0 : ({ start with store := start.store.put (aKeyFor "" "first") } : Registry) = s0 at hput
  have hstore0 : s0.store = Store.put [] (aKeyFor "" "first") := hs0 ▸ rfl
  have hgets0 : ∀ i, s0.gets i = .uncalled := fun i => hs0 ▸ rfl
  have hrun0 : Run Step Steady start _ s0 := Run.nil.snoc hsteady hput
  obtain ⟨as, s, hbuilds, hreturned, hother, hstore, hbyKey, -, -, -⟩ :=
    builds_run hget (hgets0 0) aKeyFor_named (hstore0 ▸ hresolve)
      (hs0 ▸ rfl) (hs0 ▸ rfl)
  have hbuilt : s0.built = 0 := hs0 ▸ rfl
  rw [hbuilt] at hreturned hbyKey
  have huncalled : s.gets 1 = .uncalled := (hother 1 (by decide)).trans (hgets0 1)
  obtain ⟨bs, t, hfinds, hfound, -, -⟩ :=
    finds_run hget huncalled aKeyFor_named
      (hstore ▸ hstore0 ▸ hresolve) hbyKey
  have hone := one_service (hrun0.trans hbuilds)
  exact ⟨_, s, bs, t, hrun0.trans hbuilds, hfinds, hreturned, huncalled, hfound,
    hone.2.1 1 bs t _ huncalled hfinds hfound⟩

/-- A key is enrolled, and the calls and services are as they were. -/
theorem put_run (hk : Enrolled k) : ∃ t, Run Step Always s [.put k] t ∧ t.store = s.store.put k ∧
    t.gets = s.gets ∧ t.byKey = s.byKey ∧ t.pending = s.pending ∧ t.built = s.built :=
  ⟨{ s with store := s.store.put k }, Run.nil.snoc trivial (.put hk), rfl, rfl, rfl, rfl, rfl⟩

/-- A wallet that traded under a strategy's key enrolls a key for itself and has two services from
then on. When it enrolls that key anew, a call still gets the service of the replaced key. -/
theorem two_services : ∃ as s bs t, Run Step Always start as s ∧ Run Step Always s bs t ∧
    s.gets 0 = .returned (.ok ⟨0, aKeyFor "rsi" "first"⟩) ∧
      s.gets 1 = .returned (.ok ⟨1, aKeyFor "" "second"⟩) ∧ s.gets 2 = .uncalled ∧
      s.store.resolve "0x00000000000000000000000000000000000000aa" "" =
        some (aKeyFor "" "third") ∧
      t.store = s.store ∧ t.gets 2 = .returned (.ok ⟨1, aKeyFor "" "second"⟩) := by
  have halways : ∀ (t : Registry) (i : Nat), Always t (RegistryAction.get i) := fun _ _ => trivial
  have hfirst : Store.resolve (Store.put [] (aKeyFor "rsi" "first"))
      (toLower (trimSpace "0x00000000000000000000000000000000000000aa")) (trimSpace "") =
        some (aKeyFor "rsi" "first") := by decide +kernel
  have hsecond : Store.resolve (Store.put (Store.put [] (aKeyFor "rsi" "first")) (aKeyFor "" "second"))
      (toLower (trimSpace "0x00000000000000000000000000000000000000aa")) (trimSpace "") =
        some (aKeyFor "" "second") := by decide +kernel
  have hthird : Store.resolve (Store.put (Store.put (Store.put [] (aKeyFor "rsi" "first"))
      (aKeyFor "" "second")) (aKeyFor "" "third"))
      (toLower (trimSpace "0x00000000000000000000000000000000000000aa")) (trimSpace "") =
        some (aKeyFor "" "third") := by decide +kernel
  have hids : (aKeyFor "" "second").ID ≠ (aKeyFor "rsi" "first").ID := by decide +kernel
  have hsame : (aKeyFor "" "third").ID = (aKeyFor "" "second").ID := by decide +kernel
  obtain ⟨s0, hput0, hstore0, hgets0, hbyKey0, hpending0, hbuilt0⟩ :=
    put_run (s := start) (aKeyFor_enrolled "first").2
  obtain ⟨as1, s1, hbuild1, hreturned1, hother1, hstore1, -, hbyKey1, hpending1, hbuilt1⟩ :=
    builds_run (s := s0) halways (i := 0) (hgets0 ▸ rfl) aKeyFor_named (hstore0 ▸ hfirst)
      (hbyKey0 ▸ rfl) (hpending0 ▸ rfl)
  obtain ⟨s2, hput2, hstore2, hgets2, hbyKey2, hpending2, hbuilt2⟩ :=
    put_run (s := s1) (aKeyFor_enrolled "second").1
  have hresolve2 : s2.store.resolve
      (toLower (trimSpace "0x00000000000000000000000000000000000000aa")) (trimSpace "") =
        some (aKeyFor "" "second") := by
    rw [hstore2, hstore1, hstore0]
    exact hsecond
  have hnone2 : s2.byKey (aKeyFor "" "second").ID = none := by
    rw [hbyKey2, hbyKey1 _ hids, hbyKey0]
    rfl
  have hfree2 : s2.pending (aKeyFor "" "second").ID = none := by
    rw [hpending2, hpending1 _ hids, hpending0]
    rfl
  have hgets1 : ∀ i ≠ 0, s2.gets i = .uncalled := by
    intro i hi
    rw [hgets2, hother1 i hi, hgets0]
    rfl
  obtain ⟨as3, s3, hbuild3, hreturned3, hother3, hstore3, hserved3, -, -, -⟩ :=
    builds_run halways (hgets1 1 (by decide)) aKeyFor_named hresolve2 hnone2 hfree2
  have hzero : s0.built = 0 := hbuilt0
  rw [hbuilt2, hbuilt1, hzero] at hreturned3 hserved3
  rw [hzero] at hreturned1
  obtain ⟨s4, hput4, hstore4, hgets4, hbyKey4, -, -⟩ :=
    put_run (s := s3) (aKeyFor_enrolled "third").1
  have hresolve4 : s4.store.resolve
      (toLower (trimSpace "0x00000000000000000000000000000000000000aa")) (trimSpace "") =
        some (aKeyFor "" "third") := by
    rw [hstore4, hstore3, hstore2, hstore1, hstore0]
    exact hthird
  have huncalled4 : s4.gets 2 = .uncalled := by
    rw [hgets4, hother3 2 (by decide)]
    exact hgets1 2 (by decide)
  have hserved4 : s4.byKey (aKeyFor "" "third").ID = some ⟨1, aKeyFor "" "second"⟩ := by
    rw [hsame, hbyKey4]
    exact hserved3
  obtain ⟨bs, t, hfinds, hfound, -, hstore5⟩ :=
    finds_run halways huncalled4 aKeyFor_named hresolve4 hserved4
  refine ⟨_, s4, bs, t, (((hput0.trans hbuild1).trans hput2).trans hbuild3).trans hput4, hfinds, ?_,
    ?_, huncalled4, ?_, hstore5, hfound⟩
  · rw [hgets4, hother3 0 (by decide), hgets2]
    exact hreturned1
  · rw [hgets4]
    exact hreturned3
  · have hwritten : toLower (trimSpace "0x00000000000000000000000000000000000000aa") =
        "0x00000000000000000000000000000000000000aa" := by decide +kernel
    have hempty : trimSpace "" = "" := by decide
    rw [hwritten, hempty] at hresolve4
    exact hresolve4

end Registry
end SuperAgent.Platform
