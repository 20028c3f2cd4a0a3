import SuperAgent.Core.Table
import SuperAgent.Keys.Store
import SuperAgent.Platform.Auth

/-!
# Enrollments in progress

Between the payload a wallet is asked to sign and the key it becomes, an
enrollment waits under a random handle, for ten minutes at most, and is taken
once.
-/

namespace SuperAgent.Keys

open Platform (encodeHex)

/-- What is used of Ed25519. A private key is its seed with the public key after it. -/
structure Ed25519 where
  newKeyFromSeed : List Nat → List Nat
  sign : List Nat → List Nat → List Nat
  verify : List Nat → List Nat → List Nat → Bool

namespace Ed25519

def publicKeySize : Nat := 32
def seedSize : Nat := 32

/-- Random bytes a pair is generated from. -/
abbrev Seed := { seed : List Nat // seed.length = seedSize }

/-- The public half of a private key. -/
def publicOf (priv : List Nat) : List Nat := priv.drop seedSize

/-- What Ed25519 promises of keys made from seeds. -/
structure Lawful (E : Ed25519) : Prop where
  verify_sign : ∀ (seed : Seed) (msg : List Nat),
    E.verify (publicOf (E.newKeyFromSeed seed)) msg (E.sign (E.newKeyFromSeed seed) msg) = true

end Ed25519

/-- The venue's sign-in message, and what is echoed back with its signature. -/
structure AuthPayload where
  message : String
  nonce : String
  issuedAt : Int64
  mac : String
  deriving DecidableEq

/-- An enrollment between the payload step and the enroll step. Without a private key, the key is
with the device. -/
structure Pending where
  handle : String
  address : String
  strategy : String
  label : String
  privateKey : List Nat
  publicKey : List Nat
  derived : Bool
  typedData : List UInt8
  mac : String
  salt : String
  auth : AuthPayload
  builderID : Int
  maxFee : Int
  expiresAt : Time
  deriving DecidableEq

/-- The keys a process begins with, as they are kept elsewhere. -/
def Store.withBackend (saved : List Key) : Store :=
  saved.foldl (fun s k => Table.put Key.ID { k with address := normalize k.address } s) []

/-- What an enrollment is prepared from. -/
structure PendingRequest where
  address : String
  strategy : String
  label : String
  builderID : Int
  maxFee : Int
  publicKey : List Nat

/-- How long a payload may sit unsigned. -/
def pendingTTL : Duration := 10 * Duration.minute

/-- Why an enrollment cannot go on. -/
inductive PendingError
  | errNotFound
  | errExpired
  | publicKeySize
  deriving DecidableEq

def PendingError.text : PendingError → String
  | .errNotFound => "keys: no key for this address"
  | .errExpired => "keys: enrollment expired; request a new payload"
  | .publicKeySize => "keys: public key must be 32 bytes"

/-- Sets an enrollment up: with the device's public key, or with a fresh pair from a random seed. -/
def preparePending (E : Ed25519) (now : Time) (req : PendingRequest) (seed : Ed25519.Seed)
    (handle : List Nat) : Except PendingError Pending :=
  let p : Pending :=
    { handle := encodeHex handle
      address := normalize req.address
      strategy := trimSpace req.strategy
      label := req.label
      privateKey := []
      publicKey := req.publicKey
      derived := true
      typedData := []
      mac := ""
      salt := ""
      auth := ⟨"", "", 0, ""⟩
      builderID := req.builderID
      maxFee := req.maxFee
      expiresAt := now.add pendingTTL }
  if 0 < req.publicKey.length then
    if req.publicKey.length ≠ Ed25519.publicKeySize then .error .publicKeySize
    else .ok p
  else
    let priv := E.newKeyFromSeed seed
    .ok { p with publicKey := Ed25519.publicOf priv, privateKey := priv, derived := false }

/-- An enrollment that waits, with the call that prepared it. -/
structure Waiting where
  call : ℕ
  pending : Pending

/-- The enrollments that wait, by their handles. -/
abbrev Waitings := List Waiting

/-- A private key with the public key it was made with. -/
def Paired (E : Ed25519) (p : Pending) : Prop :=
  ∃ seed : Ed25519.Seed, p.privateKey = E.newKeyFromSeed seed ∧
    p.publicKey = Ed25519.publicOf p.privateKey

/-- What an enrollment is prepared with stays with it, and its key is the platform's own pair or the
public half the device named. -/
structure Prepared (E : Ed25519) (now : Time) (req : PendingRequest) (p : Pending) : Prop where
  address : p.address = normalize req.address
  strategy : p.strategy = trimSpace req.strategy
  terms : p.builderID = req.builderID ∧ p.maxFee = req.maxFee
  expires : p.expiresAt = now.add pendingTTL
  derived : p.derived = true → p.publicKey = req.publicKey
  generated : p.derived = false → req.publicKey = [] ∧ Paired E p

theorem preparePending_spec {E : Ed25519} {now : Time} {req : PendingRequest} {seed : Ed25519.Seed}
    {handle : List Nat} {p : Pending} (h : preparePending E now req seed handle = .ok p) :
    Prepared E now req p := by
  unfold preparePending at h
  dsimp only at h
  split at h
  · split at h
    · cases h
    · obtain rfl := Except.ok.inj h
      exact ⟨rfl, rfl, ⟨rfl, rfl⟩, rfl, fun _ => rfl, nofun⟩
  · next hnone =>
    obtain rfl := Except.ok.inj h
    have hnil : req.publicKey = [] := List.length_eq_zero_iff.mp (by omega)
    exact ⟨rfl, rfl, ⟨rfl, rfl⟩, rfl, nofun, fun _ => ⟨hnil, seed, rfl, rfl⟩⟩

namespace Store

variable {saved : Store} {k : Key}

/-- What is loaded was kept, when it is kept as it should be. -/
theorem mem_of_withBackend (h : saved.Sound) (hk : k ∈ withBackend saved) : k ∈ saved := by
  have hload : ∀ (ks s : Store), (∀ k ∈ ks, k.Stored) → k ∈ ks.foldl (fun s k =>
      Table.put Key.ID { k with address := normalize k.address } s) s → k ∈ s ∨ k ∈ ks := by
    intro ks
    induction ks with
    | nil => exact fun s _ hk => .inl hk
    | cons l ks ih =>
      intro s hks hk
      have hsame : { l with address := normalize l.address } = l := by
        rw [(hks l List.mem_cons_self).normal]
      rw [List.foldl_cons, hsame] at hk
      rcases ih _ (fun x hx => hks x (List.mem_cons_of_mem l hx)) hk with hput | hrest
      · rcases Table.mem_put.mp hput with ⟨hin, -⟩ | rfl
        · exact .inl hin
        · exact .inr List.mem_cons_self
      · exact .inr (List.mem_cons_of_mem l hrest)
  exact (hload saved [] h hk).resolve_left nofun

end Store

namespace Waitings

def handle (w : Waiting) : String := w.pending.handle

/-- Those not expired yet. -/
def gc (ws : Waitings) (now : Time) : Waitings := ws.filter fun w => ¬ w.pending.expiresAt < now

/-- Records a prepared enrollment once its payload exists. -/
def register (ws : Waitings) (now : Time) (w : Waiting) : Waitings := Table.put handle w (ws.gc now)

/-- Takes the enrollment of a handle out. It is gone also when it has expired. -/
def takePending (ws : Waitings) (now : Time) (h : String) :
    Except PendingError Waiting × Waitings :=
  match Table.row handle h ws with
  | none => (.error .errNotFound, ws)
  | some w =>
    (if w.pending.expiresAt < now then .error .errExpired else .ok w, Table.erase handle h ws)

variable {ws : Waitings} {w w' : Waiting} {now : Time} {h : String} {e : PendingError}

theorem mem_register (hw : w ∈ ws.register now w') : w ∈ ws ∨ w = w' := by
  rcases Table.mem_put.mp hw with ⟨hkept, -⟩ | rfl
  · exact .inl (List.mem_filter.mp hkept).1
  · exact .inr rfl

/-- What is taken was there, not expired, and is nowhere any more. -/
theorem takePending_spec (ht : (ws.takePending now h).1 = .ok w) :
    w ∈ ws ∧ w.pending.handle = h ∧ now ≤ w.pending.expiresAt ∧ w ∉ (ws.takePending now h).2 := by
  unfold takePending at *
  split at ht
  · cases ht
  · next w' hrow =>
    obtain ⟨hmem, hhandle⟩ := Table.mem_of_row hrow
    dsimp only at ht
    split at ht
    · cases ht
    · next hexpired =>
      obtain rfl := Except.ok.inj ht
      exact ⟨hmem, hhandle, Int.not_lt.mp hexpired, fun hin => (Table.mem_erase.mp hin).2 hhandle⟩

theorem takePending_sublist (ws : Waitings) (now : Time) (h : String) :
    (ws.takePending now h).2.Sublist ws := by
  unfold takePending
  split
  · exact List.Sublist.refl ws
  · exact List.filter_sublist

end Waitings

end SuperAgent.Keys
