import SuperAgent.Core.Run
import SuperAgent.Platform.Auth

/-!
# Keys behind a cache

Requests and registrations beside each other. A key that is stored is never
forgotten again, so a key set that was read is one the wallet still has; but an
empty one may have been read before the first registration, and only the
registration's own look at the cache takes it back.
-/

namespace SuperAgent.Platform

/-- The keys of a wallet as the cache has them. -/
structure CachedKeys where
  keys : List (List Nat)
  expires : Time

/-- Where a request is. -/
inductive AuthStage
  | unsent
  | arrived
  /-- The cache had nothing for it. -/
  | missed
  /-- It has read the keys, and has not filled the cache yet. -/
  | fetched (keys : List (List Nat))
  | holding (keys : List (List Nat))
  | answered (reply : Reply)

structure AuthCall where
  request : HTTPRequest
  stage : AuthStage

/-- Where a registration is. One that fails its checks, or that storage refuses, changes nothing. -/
inductive RegistrationStage
  | unsent
  | accepted
  | stored
  | forgotten
  | returned
  deriving DecidableEq

structure Registration where
  address : String
  publicKey : List Nat
  stage : RegistrationStage

/-- The authenticator with its storage, its requests and its registrations. -/
structure Auth where
  keys : String → List (List Nat)
  cache : String → Option CachedKeys
  calls : Nat → AuthCall
  registrations : Nat → Registration

/-- What happens next, with the request or the registration it happens to. -/
inductive AuthAction
  | arrive (i : Nat)
  | look (i : Nat)
  | fetch (i : Nat)
  | fill (i : Nat)
  | decide (i : Nat)
  | register (k : Nat)

namespace Auth

/-- Nothing is registered and nothing was asked. -/
def start : Auth where
  keys _ := []
  cache _ := none
  calls _ := ⟨⟨"", "", "", "", "", "", none⟩, .unsent⟩
  registrations _ := ⟨"", [], .unsent⟩

variable (s : Auth)

def setCall (i : Nat) (c : AuthCall) : Auth := { s with calls := Function.update s.calls i c }

/-- A request goes on. -/
def set (i : Nat) (stage : AuthStage) : Auth := s.setCall i ⟨(s.calls i).request, stage⟩

def setRegistration (k : Nat) (r : Registration) : Auth :=
  { s with registrations := Function.update s.registrations k r }

/-- A registration goes on. -/
def advance (k : Nat) (stage : RegistrationStage) : Auth :=
  s.setRegistration k { s.registrations k with stage }

/-- The wallet of a request. -/
def wallet (i : Nat) : String := (s.calls i).request.wallet

/-- A key is stored for a wallet, unless it is stored already. -/
def putAuthKey (address : String) (publicKey : List Nat) : Auth :=
  if publicKey ∈ s.keys address then s
  else { s with keys := Function.update s.keys address (s.keys address ++ [publicKey]) }

def setCache (address : String) (c : Option CachedKeys) : Auth :=
  { s with cache := Function.update s.cache address c }

/-- The wallet's entry of the cache is deleted. -/
def forget (address : String) : Auth := s.setCache address none

/-- A request fills the cache with the keys it read. -/
def fill (i : Nat) (keys : List (List Nat)) (now : Time) : Auth :=
  (s.set i (.holding keys)).setCache (s.wallet i) (some ⟨keys, now.add authCacheTTL⟩)

/-- One section of a request or of a registration. The clock is read at any time. -/
inductive Step (P : Primitives) (s : Auth) : AuthAction → Auth → Prop
  | passed {i : Nat} {r : HTTPRequest} : (s.calls i).stage = .unsent → r.Unchecked →
    Step P s (.arrive i) (s.setCall i ⟨r, .answered .served⟩)
  | arrived {i : Nat} {r : HTTPRequest} : (s.calls i).stage = .unsent → ¬ r.Unchecked →
    Step P s (.arrive i) (s.setCall i ⟨r, .arrived⟩)
  | hit {i : Nat} {c : CachedKeys} {now : Time} : (s.calls i).stage = .arrived →
    s.cache (s.wallet i) = some c → now < c.expires → Step P s (.look i) (s.set i (.holding c.keys))
  | missed {i : Nat} {now : Time} : (s.calls i).stage = .arrived →
    (∀ c, s.cache (s.wallet i) = some c → c.expires ≤ now) → Step P s (.look i) (s.set i .missed)
  | fetched {i : Nat} : (s.calls i).stage = .missed →
    Step P s (.fetch i) (s.set i (.fetched (s.keys (s.wallet i))))
  | unavailable {i : Nat} : (s.calls i).stage = .missed →
    Step P s (.fetch i)
      (s.set i (.answered (.refused 503 "internal" "cannot check request signature")))
  | filled {i : Nat} {keys : List (List Nat)} {now : Time} : (s.calls i).stage = .fetched keys →
    Step P s (.fill i) (s.fill i keys now)
  | decided {i : Nat} {keys : List (List Nat)} {now : Time} : (s.calls i).stage = .holding keys →
    Step P s (.decide i) (s.set i (.answered ((s.calls i).request.middleware P keys now)))
  | accepted {k : Nat} {r : RegisterAuthKey} {now : Time} {address : String} {publicKey : List Nat} :
    (s.registrations k).stage = .unsent → r.check P now = .ok (address, publicKey) →
    Step P s (.register k)
      (s.setRegistration k ⟨address, publicKey, .accepted⟩)
  | stored {k : Nat} : (s.registrations k).stage = .accepted →
    Step P s (.register k)
      ((s.putAuthKey (s.registrations k).address (s.registrations k).publicKey).advance k .stored)
  | forgotten {k : Nat} : (s.registrations k).stage = .stored →
    Step P s (.register k) ((s.forget (s.registrations k).address).advance k .forgotten)
  | returned {k : Nat} : (s.registrations k).stage = .forgotten →
    Step P s (.register k) (s.advance k .returned)

/-! ## What a step leaves -/

variable {s} {s' t : Auth} {P : Primitives} {a : AuthAction} {as bs : List AuthAction} {i j k : Nat}
  {c : AuthCall} {r : HTTPRequest} {w : String} {stage : AuthStage}

@[simp] theorem setCall_self : (s.setCall i c).calls i = c := Function.update_self _ _ _

@[simp] theorem setCall_of_ne (h : j ≠ i) : (s.setCall i c).calls j = s.calls j :=
  Function.update_of_ne h _ _

@[simp] theorem setCall_cache : (s.setCall i c).cache = s.cache := rfl

theorem setRegistration_self {r : Registration} : (s.setRegistration k r).registrations k = r :=
  Function.update_self _ _ _

theorem setRegistration_of_ne {r : Registration} {l : Nat} (h : l ≠ k) :
    (s.setRegistration k r).registrations l = s.registrations l := Function.update_of_ne h _ _

theorem setCache_self {o : Option CachedKeys} : (s.setCache w o).cache w = o :=
  Function.update_self _ _ _

theorem setCache_of_ne {o : Option CachedKeys} {v : String} (h : v ≠ w) :
    (s.setCache w o).cache v = s.cache v := Function.update_of_ne h _ _

@[simp] theorem setCache_calls {o : Option CachedKeys} : (s.setCache w o).calls = s.calls := rfl

@[simp] theorem setCache_registrations {o : Option CachedKeys} :
    (s.setCache w o).registrations = s.registrations := rfl

@[simp] theorem putAuthKey_registrations {address : String} {key : List Nat} :
    (s.putAuthKey address key).registrations = s.registrations := by
  unfold putAuthKey
  split <;> rfl

@[simp] theorem putAuthKey_calls {address : String} {key : List Nat} :
    (s.putAuthKey address key).calls = s.calls := by
  unfold putAuthKey
  split <;> rfl

@[simp] theorem putAuthKey_cache {address : String} {key : List Nat} :
    (s.putAuthKey address key).cache = s.cache := by
  unfold putAuthKey
  split <;> rfl

theorem putAuthKey_keys {address : String} {key : List Nat} : (s.putAuthKey address key).keys =
    if key ∈ s.keys address then s.keys
    else Function.update s.keys address (s.keys address ++ [key]) := by
  unfold putAuthKey
  split <;> rfl

/-- The stored key is among the wallet's, and no other is lost. -/
theorem mem_putAuthKey {address : String} {key key' : List Nat} :
    key' ∈ (s.putAuthKey address key).keys w ↔ key' ∈ s.keys w ∨ w = address ∧ key' = key := by
  unfold putAuthKey
  by_cases hknown : key ∈ s.keys address
  · rw [if_pos hknown]
    constructor
    · exact .inl
    · rintro (h | ⟨rfl, rfl⟩)
      · exact h
      · exact hknown
  · rw [if_neg hknown]
    by_cases hw : w = address
    · subst hw
      simp
    · simp [hw]

/-- Keys are only ever added. -/
theorem Step.keys_mono (hs : s.Step P a s') {key : List Nat} (h : key ∈ s.keys w) :
    key ∈ s'.keys w := by
  cases hs with
  | stored _ => exact mem_putAuthKey.mpr (.inl h)
  | _ => exact h

/-- Whether a registration of a wallet has looked at the cache already. -/
def Forgot (s : Auth) (w : String) : Prop :=
  ∃ k, (s.registrations k).address = w ∧
    ((s.registrations k).stage = .forgotten ∨ (s.registrations k).stage = .returned)

theorem Forgot.frame (h : s.Forgot w) (hr : s'.registrations = s.registrations) : s'.Forgot w := by
  rwa [Forgot, hr]

/-- A registration that goes on does not come back before its look at the cache. -/
theorem forgot_advance {stage : RegistrationStage}
    (h : (s.registrations k).stage = .forgotten ∨ (s.registrations k).stage = .returned →
      stage = .forgotten ∨ stage = .returned) (hw : s.Forgot w) : (s.advance k stage).Forgot w := by
  obtain ⟨l, hl, hstage⟩ := hw
  by_cases hlk : l = k
  · subst hlk
    refine ⟨l, ?_⟩
    rw [advance, setRegistration_self]
    exact ⟨hl, h hstage⟩
  · refine ⟨l, ?_⟩
    rw [advance, setRegistration_of_ne hlk]
    exact ⟨hl, hstage⟩

theorem Step.forgot (hs : s.Step P a s') (h : s.Forgot w) : s'.Forgot w := by
  cases hs with
  | @accepted k r now address publicKey hk _ =>
    obtain ⟨l, hl, hstage⟩ := h
    have hlk : l ≠ k := by
      rintro rfl
      simp [hk] at hstage
    refine ⟨l, ?_⟩
    rw [setRegistration_of_ne hlk]
    exact ⟨hl, hstage⟩
  | @stored k hk =>
    refine forgot_advance ?_ ?_
    · rw [putAuthKey_registrations, hk]
      exact fun h => h.elim nofun nofun
    · exact h.frame putAuthKey_registrations
  | @forgotten k _ =>
    apply forgot_advance
    · exact fun _ => .inl rfl
    · exact h.frame setCache_registrations
  | @returned k _ =>
    apply forgot_advance
    · exact fun _ => .inr rfl
    · exact h
  | filled _ => exact h.frame setCache_registrations
  | passed _ _ | arrived _ _ | hit _ _ _ | missed _ _ | fetched _ | unavailable _ | decided _ =>
    exact h.frame rfl

/-! ## The keys that are held -/

/-- The empty key set is not put into the cache once a registration of the wallet has looked there. -/
def NoStaleFill (s : Auth) : AuthAction → Prop
  | .fill i => (s.calls i).stage = .fetched [] → ¬ s.Forgot (s.wallet i)
  | _ => True

/-- Key sets that were read are part of what is stored, and a wallet whose registration has looked at
the cache has no empty one there. -/
structure Enforced (s : Auth) : Prop where
  cached : ∀ w c, s.cache w = some c → ∀ key ∈ c.keys, key ∈ s.keys w
  held : ∀ i keys, (s.calls i).stage = .fetched keys ∨ (s.calls i).stage = .holding keys →
    ∀ key ∈ keys, key ∈ s.keys (s.wallet i)
  named : ∀ k, (s.registrations k).stage ≠ .unsent → (s.registrations k).address ≠ ""
  stored : ∀ k, (s.registrations k).stage ≠ .unsent → (s.registrations k).stage ≠ .accepted →
    (s.registrations k).publicKey ∈ s.keys (s.registrations k).address
  fresh : ∀ w c, s.Forgot w → s.cache w = some c → c.keys ≠ []

theorem start_enforced : start.Enforced where
  cached _ _ := nofun
  held _ _ h := h.elim nofun nofun
  named _ h := absurd rfl h
  stored _ h := absurd rfl h
  fresh _ _ := nofun

/-- A request goes on with keys that are stored. -/
theorem Enforced.setCall (h : s.Enforced)
    (hheld : ∀ keys, c.stage = .fetched keys ∨ c.stage = .holding keys →
      ∀ key ∈ keys, key ∈ s.keys c.request.wallet) : (s.setCall i c).Enforced := by
  refine ⟨h.cached, fun j keys hj key hkey => ?_, h.named, h.stored, h.fresh⟩
  by_cases hji : j = i
  · subst hji
    rw [setCall_self] at hj
    rw [wallet, setCall_self]
    exact hheld keys hj key hkey
  · rw [setCall_of_ne hji] at hj
    rw [wallet, setCall_of_ne hji]
    exact h.held j keys hj key hkey

/-- A request goes on without keys. -/
theorem Enforced.set (h : s.Enforced)
    (hstage : (∀ keys, stage ≠ .fetched keys) ∧ ∀ keys, stage ≠ .holding keys) :
    (s.set i stage).Enforced :=
  h.setCall fun keys hk => hk.elim (fun hk => absurd hk (hstage.1 keys))
    fun hk => absurd hk (hstage.2 keys)

/-- A wallet's entry of the cache is filled or deleted. -/
theorem Enforced.setCache {o : Option CachedKeys} (h : s.Enforced)
    (hcached : ∀ c, o = some c → ∀ key ∈ c.keys, key ∈ s.keys w)
    (hfresh : ∀ c, o = some c → s.Forgot w → c.keys ≠ []) : (s.setCache w o).Enforced := by
  refine ⟨fun v c hc => ?_, h.held, h.named, h.stored, fun v c hv hc => ?_⟩
  · by_cases hvw : v = w
    · rw [hvw, setCache_self] at hc
      exact hvw ▸ hcached c hc
    · rw [setCache_of_ne hvw] at hc
      exact h.cached v c hc
  · by_cases hvw : v = w
    · rw [hvw, setCache_self] at hc
      exact hfresh c hc (hvw ▸ hv.frame setCache_registrations.symm)
    · rw [setCache_of_ne hvw] at hc
      exact h.fresh v c (hv.frame setCache_registrations.symm) hc

/-- A request fills the cache. -/
theorem Enforced.fill {keys : List (List Nat)} {now : Time} (h : s.Enforced)
    (hi : (s.calls i).stage = .fetched keys) (hok : s.NoStaleFill (.fill i)) :
    (s.fill i keys now).Enforced := by
  have hheld := h.held i keys (.inl hi)
  have hset : (s.set i (.holding keys)).Enforced := h.setCall fun keys' hk => by
    rcases hk with hk | hk
    · cases hk
    · cases hk
      exact hheld
  refine hset.setCache (fun c hc => ?_) (fun c hc hw => ?_)
  · obtain rfl := Option.some.inj hc
    exact hheld
  · obtain rfl := Option.some.inj hc
    rintro rfl
    exact hok hi (hw.frame rfl)

/-- A key is stored. -/
theorem Enforced.putAuthKey {address : String} {key : List Nat} (h : s.Enforced) :
    (s.putAuthKey address key).Enforced := by
  have hmono : ∀ {w key'}, key' ∈ s.keys w → key' ∈ (s.putAuthKey address key).keys w :=
    fun hk => mem_putAuthKey.mpr (.inl hk)
  refine ⟨fun w c hc key' hk => ?_, fun i keys hi key' hk => ?_, ?_, fun k h0 h1 => ?_,
    fun w c hw hc => ?_⟩
  · rw [putAuthKey_cache] at hc
    exact hmono (h.cached w c hc key' hk)
  · rw [putAuthKey_calls] at hi
    rw [wallet, putAuthKey_calls]
    exact hmono (h.held i keys hi key' hk)
  · rw [putAuthKey_registrations]
    exact h.named
  · rw [putAuthKey_registrations] at h0 h1 ⊢
    exact hmono (h.stored k h0 h1)
  · rw [putAuthKey_cache] at hc
    exact h.fresh w c (hw.frame putAuthKey_registrations.symm) hc

/-- A registration goes on. -/
theorem Enforced.setRegistration {r : Registration} (h : s.Enforced) (hnamed : r.address ≠ "")
    (hstored : r.stage ≠ .accepted → r.publicKey ∈ s.keys r.address)
    (hfresh : r.stage = .forgotten ∨ r.stage = .returned →
      ∀ c, s.cache r.address = some c → c.keys ≠ []) : (s.setRegistration k r).Enforced := by
  refine ⟨h.cached, h.held, fun l hl => ?_, fun l h0 h1 => ?_, ?_⟩
  · by_cases hlk : l = k
    · rw [hlk, setRegistration_self]
      exact hnamed
    · rw [setRegistration_of_ne hlk] at hl ⊢
      exact h.named l hl
  · by_cases hlk : l = k
    · rw [hlk, setRegistration_self] at h1 ⊢
      exact hstored h1
    · rw [setRegistration_of_ne hlk] at h0 h1 ⊢
      exact h.stored l h0 h1
  · rintro w c ⟨l, hl, hstage⟩ hc
    by_cases hlk : l = k
    · rw [hlk, setRegistration_self] at hl hstage
      subst hl
      exact hfresh hstage c hc
    · rw [setRegistration_of_ne hlk] at hl hstage
      exact h.fresh w c ⟨l, hl, hstage⟩ hc

theorem Enforced.step (h : s.Enforced) (hok : s.NoStaleFill a) (hs : s.Step P a s') :
    s'.Enforced := by
  cases hs with
  | passed _ _ => exact h.setCall fun _ hk => hk.elim nofun nofun
  | arrived _ _ => exact h.setCall fun _ hk => hk.elim nofun nofun
  | @hit i c now _ hc _ =>
    refine h.setCall fun keys hk => ?_
    rcases hk with hk | hk
    · cases hk
    · cases hk
      exact h.cached _ c hc
  | missed _ _ => exact h.set ⟨nofun, nofun⟩
  | fetched _ =>
    refine h.setCall fun keys hk => ?_
    rcases hk with hk | hk
    · cases hk
      exact fun _ => id
    · cases hk
  | unavailable _ => exact h.set ⟨nofun, nofun⟩
  | filled hi => exact h.fill hi hok
  | decided _ => exact h.set ⟨nofun, nofun⟩
  | accepted _ hcheck =>
    refine h.setRegistration (address_ne_empty hcheck) (fun hstage => absurd rfl hstage) ?_
    exact fun hstage => hstage.elim nofun nofun
  | @stored k hk =>
    rw [advance, putAuthKey_registrations]
    refine h.putAuthKey.setRegistration (h.named k (hk ▸ nofun)) ?_ ?_
    · exact fun _ => mem_putAuthKey.mpr (.inr ⟨rfl, rfl⟩)
    · exact fun hstage => hstage.elim nofun nofun
  | @forgotten k hk =>
    have hforget : (s.forget (s.registrations k).address).Enforced := h.setCache nofun nofun
    refine hforget.setRegistration (h.named k (hk ▸ nofun)) ?_ ?_
    · exact fun _ => h.stored k (hk ▸ nofun) (hk ▸ nofun)
    · have hempty : (s.forget (s.registrations k).address).cache (s.registrations k).address = none :=
        setCache_self
      intro _ c hc
      cases hempty.symm.trans hc
  | @returned k hk =>
    refine h.setRegistration (h.named k (hk ▸ nofun)) ?_ ?_
    · exact fun _ => h.stored k (hk ▸ nofun) (hk ▸ nofun)
    · exact fun _ c => h.fresh _ c ⟨k, rfl, .inl hk⟩

/-! ## Requests that arrive later -/

/-- A request that arrived after a wallet's registration returned: it has keys to check, and is
served with a signature by one of them. -/
structure Late (P : Primitives) (s : Auth) (w : String) (i : Nat) : Prop where
  read : ∀ keys, (s.calls i).stage = .fetched keys ∨ (s.calls i).stage = .holding keys →
    s.wallet i = w → keys ≠ []
  signed : (s.calls i).stage = .answered .served → s.wallet i = w → ¬ (s.calls i).request.Unchecked →
    ∃ pub ∈ s.keys w, (s.calls i).request.SignedBy P pub

/-- What does not touch the request keeps it. -/
theorem Late.frame (h : s.Late P w i) (hcall : s'.calls i = s.calls i)
    (hkeys : ∀ key, key ∈ s.keys w → key ∈ s'.keys w) : s'.Late P w i := by
  refine ⟨fun keys hk hw => ?_, fun hs hw hu => ?_⟩
  · rw [wallet, hcall] at hw
    rw [hcall] at hk
    exact h.read keys hk hw
  · rw [wallet, hcall] at hw
    rw [hcall] at hs hu ⊢
    obtain ⟨pub, hpub, hsigned⟩ := h.signed hs hw hu
    exact ⟨pub, hkeys pub hpub, hsigned⟩

/-- What a request that goes on must show. -/
theorem Late.setCall (h : s.Late P w i) (hread : j = i → ∀ keys,
      c.stage = .fetched keys ∨ c.stage = .holding keys → c.request.wallet = w → keys ≠ [])
    (hsigned : j = i → c.stage = .answered .served → c.request.wallet = w → ¬ c.request.Unchecked →
      ∃ pub ∈ s.keys w, c.request.SignedBy P pub) : (s.setCall j c).Late P w i := by
  by_cases hji : j = i
  · subst hji
    refine ⟨fun keys hk hw => ?_, fun hs hw hu => ?_⟩
    · rw [wallet, setCall_self] at hw
      rw [setCall_self] at hk
      exact hread rfl keys hk hw
    · rw [wallet, setCall_self] at hw
      rw [setCall_self] at hs hu ⊢
      exact hsigned rfl hs hw hu
  · exact h.frame (setCall_of_ne (Ne.symm hji)) fun _ => id

theorem Late.step (h : s.Late P w i) (he : s.Enforced) (hw : s.Forgot w) (hs : s.Step P a s') :
    s'.Late P w i := by
  cases hs with
  | passed _ hu =>
    refine h.setCall (fun _ keys hk => ?_) fun _ _ _ hnot => absurd hu hnot
    exact hk.elim nofun nofun
  | arrived _ _ =>
    refine h.setCall (fun _ keys hk => ?_) fun _ => nofun
    exact hk.elim nofun nofun
  | @hit j c now _ hc _ =>
    refine h.setCall (fun _ keys hk hwallet => ?_) fun _ => nofun
    rcases hk with hk | hk
    · cases hk
    · cases hk
      change s.wallet j = w at hwallet
      exact he.fresh w c hw (hwallet ▸ hc)
  | missed _ _ =>
    refine h.setCall (fun _ keys hk => ?_) fun _ => nofun
    exact hk.elim nofun nofun
  | @fetched j _ =>
    refine h.setCall (fun _ keys hk hwallet => ?_) fun _ => nofun
    rcases hk with hk | hk
    · cases hk
      change s.wallet j = w at hwallet
      obtain ⟨k, hk, hstage⟩ := hw
      have hkey := he.stored k (by rintro h; simp [h] at hstage) (by rintro h; simp [h] at hstage)
      rw [hk] at hkey
      rw [hwallet]
      exact List.ne_nil_of_mem hkey
    · cases hk
  | unavailable _ =>
    refine h.setCall (fun _ keys hk => ?_) fun _ => nofun
    exact hk.elim nofun nofun
  | @filled j keys now hj =>
    have hset : (s.set j (.holding keys)).Late P w i := by
      refine h.setCall (fun hji keys' hk hwallet => ?_) fun _ => nofun
      rcases hk with hk | hk
      · cases hk
      · cases hk
        subst hji
        exact h.read keys (.inl hj) hwallet
    exact hset.frame rfl fun _ => id
  | @decided j keys now hj =>
    refine h.setCall (fun _ keys' hk => ?_) fun hji hs hwallet _ => ?_
    · exact hk.elim nofun nofun
    · subst hji
      have hne : keys ≠ [] := h.read keys (.inr hj) hwallet
      have hserved : (s.calls j).request.middleware P keys now = .served :=
        AuthStage.answered.inj hs
      obtain ⟨pub, hpub, hsigned⟩ := HTTPRequest.signedBy_of_served hne hserved
      change s.wallet j = w at hwallet
      exact ⟨pub, hwallet ▸ he.held j keys (.inr hj) pub hpub, hsigned⟩
  | accepted _ _ => exact h.frame rfl fun _ => id
  | @stored k _ =>
    refine h.frame ?_ fun key hkey => mem_putAuthKey.mpr (.inl hkey)
    exact congrFun putAuthKey_calls i
  | forgotten _ => exact h.frame rfl fun _ => id
  | returned _ => exact h.frame rfl fun _ => id

/-- Once the registration of a wallet has returned, a request that names the wallet and arrives later
is served only with a signature by one of the wallet's keys. -/
theorem registered_wallet_signed {k : Nat} (h : Run (Step P) NoStaleFill start as s)
    (hk : (s.registrations k).stage = .returned) (hi : (s.calls i).stage = .unsent)
    (h' : Run (Step P) NoStaleFill s bs t) (hserved : (t.calls i).stage = .answered .served)
    (hw : t.wallet i = (s.registrations k).address) (hm : (t.calls i).request.method ≠ "OPTIONS") :
    ∃ pub ∈ t.keys (s.registrations k).address, (t.calls i).request.SignedBy P pub := by
  have hs : s.Enforced := h.invariant start_enforced fun _ _ _ he hok hs => he.step hok hs
  have hforgot : s.Forgot (s.registrations k).address := ⟨k, rfl, .inr hk⟩
  have hlate : s.Late P (s.registrations k).address i := by
    refine ⟨fun keys hk => ?_, fun hs => ?_⟩
    · rw [hi] at hk
      exact hk.elim nofun nofun
    · rw [hi] at hs
      cases hs
  obtain ⟨-, -, ht⟩ : t.Enforced ∧ t.Forgot (s.registrations k).address ∧
      t.Late P (s.registrations k).address i := by
    refine h'.invariant (I := fun u => u.Enforced ∧ u.Forgot (s.registrations k).address ∧
      u.Late P (s.registrations k).address i) ⟨hs, hforgot, hlate⟩ ?_
    rintro u a u' ⟨hu, huf, hul⟩ hok hstep
    exact ⟨hu.step hok hstep, hstep.forgot huf, hul.step hu huf hstep⟩
  refine ht.signed hserved hw ?_
  rintro (hempty | hoptions)
  · have hnamed := hs.named k (hk ▸ nofun)
    rw [← hw, wallet, HTTPRequest.wallet, hempty] at hnamed
    exact hnamed rfl
  · exact hm hoptions

/-- Outside the guard the wallet is open: whatever names it next is served. -/
theorem stale_fill_serves (hj : (s.calls j).stage = .fetched []) (hi : (s.calls i).stage = .unsent)
    (hw : r.wallet = s.wallet j) (hr : ¬ r.Unchecked) :
    ∃ as t, Run (Step P) Always s as t ∧ t.calls i = ⟨r, .answered .served⟩ := by
  have hij : i ≠ j := by
    rintro rfl
    rw [hi] at hj
    cases hj
  have hfill : s.Step P (.fill j) (s.fill j [] 0) := .filled hj
  have hunsent : ((s.fill j [] 0).calls i).stage = .unsent := by
    rw [fill, setCache_calls, set, setCall_of_ne hij, hi]
  have harrive := Step.arrived (P := P) hunsent hr
  generalize hu : (s.fill j [] 0).setCall i ⟨r, .arrived⟩ = u at harrive
  have hcall : u.calls i = ⟨r, .arrived⟩ := hu ▸ setCall_self
  have hcache : u.cache (u.wallet i) = some ⟨[], Time.add 0 authCacheTTL⟩ := by
    rw [wallet, hcall, hw, ← hu, setCall_cache, fill, setCache_self]
  have hvalid : (0 : Time) < Time.add 0 authCacheTTL := by decide
  have hlook := Step.hit (P := P) (congrArg AuthCall.stage hcall) hcache hvalid
  generalize hv : u.set i (.holding []) = v at hlook
  have hcall' : v.calls i = ⟨r, .holding []⟩ := by
    rw [← hv, set, setCall_self, hcall]
  have hdecide : v.Step P (.decide i)
      (v.set i (.answered ((v.calls i).request.middleware P [] 0))) :=
    .decided (congrArg AuthCall.stage hcall')
  have hrun : Run (Step P) Always s _ u := (Run.nil.snoc trivial hfill).snoc trivial harrive
  refine ⟨_, _, (hrun.snoc trivial hlook).snoc trivial hdecide, ?_⟩
  rw [set, setCall_self, hcall']
  rfl

/-- A registration runs through, while the requests stay where they are. -/
theorem registers {r : RegisterAuthKey} {now : Time} {address : String} {key : List Nat}
    (hk : (s.registrations k).stage = .unsent) (h : r.check P now = .ok (address, key)) :
    ∃ as t, Run (Step P) NoStaleFill s as t ∧ t.calls = s.calls ∧
      t.registrations k = ⟨address, key, .returned⟩ ∧ t.keys = (s.putAuthKey address key).keys ∧
      t.cache address = none := by
  have haccept := Step.accepted (P := P) hk h
  generalize hs₁ : s.setRegistration k ⟨address, key, .accepted⟩ = s₁ at haccept
  have hr₁ : s₁.registrations k = ⟨address, key, .accepted⟩ := hs₁ ▸ setRegistration_self
  have hstore := Step.stored (P := P) (congrArg Registration.stage hr₁)
  rw [hr₁] at hstore
  generalize hs₂ : (s₁.putAuthKey address key).advance k .stored = s₂ at hstore
  have hr₂ : s₂.registrations k = ⟨address, key, .stored⟩ := by
    rw [← hs₂, advance, setRegistration_self, putAuthKey_registrations, hr₁]
  have hforget := Step.forgotten (P := P) (congrArg Registration.stage hr₂)
  rw [hr₂] at hforget
  generalize hs₃ : (s₂.forget address).advance k .forgotten = s₃ at hforget
  have hr₃ : s₃.registrations k = ⟨address, key, .forgotten⟩ := by
    rw [← hs₃, advance, setRegistration_self, forget, setCache_registrations, hr₂]
  have hreturn := Step.returned (P := P) (congrArg Registration.stage hr₃)
  have hrun : Run (Step P) NoStaleFill s _ s₃ := Run.nil
    |>.snoc (by trivial) haccept
    |>.snoc (by trivial) hstore
    |>.snoc (by trivial) hforget
  refine ⟨_, _, hrun.snoc (by trivial) hreturn, ?_, ?_, ?_, ?_⟩
  · change s₃.calls = s.calls
    rw [← hs₃]
    change s₂.calls = s.calls
    rw [← hs₂]
    change (s₁.putAuthKey address key).calls = s.calls
    rw [putAuthKey_calls, ← hs₁]
    rfl
  · rw [advance, setRegistration_self, hr₃]
  · change s₃.keys = _
    rw [← hs₃]
    change s₂.keys = _
    rw [← hs₂, ← hs₁]
    change ((s.setRegistration k _).putAuthKey address key).keys = _
    rw [putAuthKey_keys, putAuthKey_keys]
    rfl
  · change s₃.cache address = none
    rw [← hs₃]
    exact setCache_self

/-- A request that finds nothing in the cache reads the keys. -/
theorem fetches (hi : (s.calls i).stage = .unsent) (hr : ¬ r.Unchecked)
    (hcache : s.cache r.wallet = none) :
    ∃ as t, Run (Step P) NoStaleFill s as t ∧ t.registrations = s.registrations ∧
      t.calls i = ⟨r, .fetched (s.keys r.wallet)⟩ ∧ t.keys = s.keys ∧
      ∀ j, j ≠ i → t.calls j = s.calls j := by
  have harrive := Step.arrived (P := P) hi hr
  generalize hs₁ : s.setCall i ⟨r, .arrived⟩ = s₁ at harrive
  have hc₁ : s₁.calls i = ⟨r, .arrived⟩ := hs₁ ▸ setCall_self
  have hmiss : s₁.Step P (.look i) (s₁.set i .missed) :=
    @Step.missed P s₁ i 0 (congrArg AuthCall.stage hc₁) fun c hc => by
      rw [wallet, hc₁, ← hs₁, setCall_cache, hcache] at hc
      cases hc
  generalize hs₂ : s₁.set i .missed = s₂ at hmiss
  have hc₂ : s₂.calls i = ⟨r, .missed⟩ := by
    rw [← hs₂, set, setCall_self, hc₁]
  have hfetch := Step.fetched (P := P) (congrArg AuthCall.stage hc₂)
  have hkeys : s₂.keys = s.keys := by
    rw [← hs₂, ← hs₁]
    rfl
  have hrun : Run (Step P) NoStaleFill s _ s₂ := Run.nil
    |>.snoc (by trivial) harrive
    |>.snoc (by trivial) hmiss
  refine ⟨_, _, hrun.snoc (by trivial) hfetch, ?_, ?_, hkeys, fun j hj => ?_⟩
  · change s₂.registrations = s.registrations
    rw [← hs₂, ← hs₁]
    rfl
  · rw [set, setCall_self, wallet, hc₂, hkeys]
  · rw [set, setCall_of_ne hj, ← hs₂, set, setCall_of_ne hj, ← hs₁, setCall_of_ne hj]

/-! ## A wallet that registers -/

/-- A request for a wallet, with or without a key, a time and a signature. -/
def requestOf (authKey authTime authSignature : String) : HTTPRequest where
  method := "GET"
  requestURI := "/v1/state"
  account := "0x00000000000000000000000000000000000000Aa"
  authKey
  authTime
  authSignature
  body := some []

def aWallet : String := "0x00000000000000000000000000000000000000aa"

def zeros (n : Nat) : String := String.ofList (List.replicate n '0')

def aKey : List Nat := List.replicate publicKeySize 0

/-- Every registration is signed by the wallet, and either every request is signed or none. -/
def allSigned (requests : Bool) : Primitives where
  sum256 _ := []
  verify _ _ _ := requests
  recoverPersonal _ _ := some (List.replicate 19 0 ++ [170])
  parseRFC3339 _ := some 0
  formatRFC3339 _ := ""

theorem decodeHex_zeros (n : Nat) :
    Chain.decodeHex (List.replicate (2 * n) '0') = some (List.replicate n 0) := by
  induction n with
  | zero => rfl
  | succ n ih =>
    rw [Nat.mul_succ, List.replicate_succ, List.replicate_succ, Chain.decodeHex, ih]
    rfl

theorem trimSpace_zeros (n : Nat) : trimSpace (zeros n) = zeros n := by
  apply trimSpace_eq_self
  intro c hc
  rw [zeros, String.toList_ofList] at hc
  rw [(List.mem_replicate.mp hc).2]
  decide

/-- Zeros are read as zeros. -/
theorem decodePrefixed_zeros (n : Nat) :
    decodePrefixed (trimSpace (zeros (2 * n))) = some (List.replicate n 0) := by
  rw [trimSpace_zeros, decodePrefixed, zeros, String.toList_ofList]
  cases n with
  | zero => rfl
  | succ n => exact decodeHex_zeros (n + 1)

theorem check_aWallet (requests : Bool) :
    RegisterAuthKey.check (allSigned requests) ⟨aWallet, zeros 64, "", zeros 130⟩ 0 =
      .ok (aWallet, aKey) := by
  have hwallet : toLower (trimSpace aWallet) = aWallet := by decide +kernel
  have haddress : isAddress aWallet = true := by decide +kernel
  have hsigner : "0x" ++ encodeHex (List.replicate 19 0 ++ [170]) = aWallet := by decide +kernel
  simp only [RegisterAuthKey.check, bind_eq_ok, revertIf_eq_ok, orRevert_eq_ok, hwallet, haddress,
    not_true, not_false_eq_true]
  refine ⟨(), trivial, aKey, decodePrefixed_zeros 32, (), not_not_intro rfl, 0, rfl, (), ?_, _,
    decodePrefixed_zeros 65, (), not_not_intro rfl, (), ?_, rfl⟩
  · decide
  · exact not_not_intro (congrArg some hsigner)

theorem requestOf_unchecked {authKey authTime authSignature : String} :
    ¬ (requestOf authKey authTime authSignature).Unchecked := by
  rintro (h | h)
  · have hnamed : trimSpace "0x00000000000000000000000000000000000000Aa" ≠ "" := by decide +kernel
    exact hnamed h
  · have hget : "GET" ≠ "OPTIONS" := by decide
    exact hget h

theorem requestOf_wallet {authKey authTime authSignature : String} :
    (requestOf authKey authTime authSignature).wallet = aWallet := by
  change toLower (trimSpace "0x00000000000000000000000000000000000000Aa") = aWallet
  decide +kernel

/-- A request with a signature of the right size is served when every request is signed. -/
theorem middleware_requestOf : (requestOf (zeros 64) "0" (zeros 128)).middleware (allSigned true) [aKey]
    (Time.unix 0) = .served := by
  have hne : ∀ n, zeros (n + 1) ≠ "" := by
    intro n h
    have hlist := congrArg String.toList h
    rw [zeros, String.toList_ofList] at hlist
    cases hlist
  have hverify : (requestOf (zeros 64) "0" (zeros 128)).verify (allSigned true) [aKey]
      (Time.unix 0) = .ok () := by
    simp only [HTTPRequest.verify, bind_eq_ok, revertIf_eq_ok, orRevert_eq_ok]
    refine ⟨(), ?_, aKey, decodePrefixed_zeros 32, (), not_not_intro rfl, (),
      not_not_intro (List.mem_singleton_self _), 0, rfl, (), ?_, _, decodePrefixed_zeros 64, (),
      not_not_intro rfl, [], rfl, not_not_intro rfl⟩
    · rintro (h | h | h)
      · exact hne _ ((trimSpace_zeros 64).symm.trans h)
      · have htime : trimSpace "0" ≠ "" := by decide
        exact htime h
      · exact hne _ ((trimSpace_zeros 128).symm.trans h)
    · decide
  rw [HTTPRequest.middleware, if_neg (List.cons_ne_nil _ _), hverify]

theorem keys_aWallet : (start.putAuthKey aWallet aKey).keys aWallet = [aKey] := by
  simp [putAuthKey, start]

/-- A wallet registers, and a signed request of it is served. -/
theorem registered_wallet_signed_state : ∃ as s bs t,
    Run (Step (allSigned true)) NoStaleFill start as s ∧
      Run (Step (allSigned true)) NoStaleFill s bs t ∧
      (s.registrations 0).stage = .returned ∧ (t.calls 0).stage = .answered .served ∧
      ∃ pub ∈ t.keys aWallet, (t.calls 0).request.SignedBy (allSigned true) pub := by
  obtain ⟨as, s, hrun, hcalls, hregistered, hkeys, hcache⟩ :=
    registers (s := start) (k := 0) rfl (check_aWallet true)
  have hunsent : (s.calls 0).stage = .unsent := hcalls ▸ rfl
  obtain ⟨bs, t, hfetch, -, hfetched, -, -⟩ := fetches (P := allSigned true)
    (r := requestOf (zeros 64) "0" (zeros 128)) hunsent requestOf_unchecked (requestOf_wallet ▸ hcache)
  rw [requestOf_wallet, hkeys, keys_aWallet] at hfetched
  have hfill : t.Step (allSigned true) (.fill 0) (t.fill 0 [aKey] 0) :=
    .filled (congrArg AuthCall.stage hfetched)
  generalize hu : t.fill 0 [aKey] 0 = u at hfill
  have hcall : u.calls 0 = ⟨requestOf (zeros 64) "0" (zeros 128), .holding [aKey]⟩ := by
    rw [← hu, fill, setCache_calls, set, setCall_self, hfetched]
  have hdecide : u.Step (allSigned true) (.decide 0) (u.set 0 (.answered
      ((u.calls 0).request.middleware (allSigned true) [aKey] (Time.unix 0)))) :=
    .decided (congrArg AuthCall.stage hcall)
  have hserved : (u.calls 0).request.middleware (allSigned true) [aKey] (Time.unix 0) = .served := by
    rw [hcall]
    exact middleware_requestOf
  rw [hserved] at hdecide
  have hfresh : t.NoStaleFill (.fill 0) := fun hempty => by
    rw [hfetched] at hempty
    cases hempty
  have hrun' := (hfetch.snoc hfresh hfill).snoc (by trivial) hdecide
  generalize hv : u.set 0 (.answered .served) = v at hrun'
  have hlast : v.calls 0 = ⟨requestOf (zeros 64) "0" (zeros 128), .answered .served⟩ := by
    rw [← hv, set, setCall_self, hcall]
  have hwallet : v.wallet 0 = (s.registrations 0).address := by
    rw [wallet, hlast, requestOf_wallet, hregistered]
  have hmethod : (v.calls 0).request.method ≠ "OPTIONS" := by
    rw [hlast]
    change "GET" ≠ "OPTIONS"
    decide
  have hreturned : (s.registrations 0).stage = .returned := congrArg Registration.stage hregistered
  have hstage : (v.calls 0).stage = .answered .served := congrArg AuthCall.stage hlast
  have hsigned := registered_wallet_signed hrun hreturned hunsent hrun' hstage hwallet hmethod
  rw [hregistered] at hsigned
  exact ⟨as, s, _, v, hrun, hrun', hreturned, hstage, hsigned⟩

/-- A request read the empty key set before the registration and fills the cache after it: a request
without any signature, which arrives when the registration has returned, is served. -/
theorem stale_fill_unsigned : ∃ as s bs t, Run (Step (allSigned false)) Always start as s ∧
    Run (Step (allSigned false)) Always s bs t ∧ s.registrations 0 = ⟨aWallet, aKey, .returned⟩ ∧
      (s.calls 1).stage = .unsent ∧ t.calls 1 = ⟨requestOf "" "" "", .answered .served⟩ ∧
      t.wallet 1 = aWallet ∧ ∀ pub, ¬ (t.calls 1).request.SignedBy (allSigned false) pub := by
  obtain ⟨as, s, hfetch, hregistrations, hfetched, hkeys, hother⟩ :=
    fetches (P := allSigned false) (s := start) (i := 0) (r := requestOf "" "" "") rfl
      requestOf_unchecked rfl
  obtain ⟨bs, t, hregister, hcalls, hregistered, -, -⟩ :=
    registers (s := s) (k := 0) (hregistrations ▸ rfl) (check_aWallet false)
  have hempty : (t.calls 0).stage = .fetched [] := by
    rw [hcalls, hfetched]
    rfl
  have hunsent : (t.calls 1).stage = .unsent := by
    rw [hcalls, hother 1 (by decide)]
    rfl
  have hwallet : (requestOf "" "" "").wallet = t.wallet 0 := by
    rw [wallet, hcalls, hfetched]
  obtain ⟨cs, u, hserves, hserved⟩ := stale_fill_serves (P := allSigned false) hempty hunsent hwallet
    requestOf_unchecked
  have hrun : Run (Step (allSigned false)) Always start _ t :=
    (hfetch.trans hregister).mono fun _ _ _ => trivial
  refine ⟨_, t, cs, u, hrun, hserves, hregistered, hunsent, hserved, ?_, ?_⟩
  · rw [wallet, hserved, requestOf_wallet]
  · rintro pub ⟨-, -, sig, body, -, -, hverify⟩
    cases hverify

end Auth
end SuperAgent.Platform
