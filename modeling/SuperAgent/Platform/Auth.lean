import SuperAgent.Chain.Address
import SuperAgent.Core.Checked
import SuperAgent.Core.Clock
import Mathlib.Logic.Function.Basic

/-!
# Signed requests

A wallet registers a request-signing key once, with a signature of its own.
From then on every request that names the wallet carries a signature by a
registered key, and the platform serves nothing to it without one. The keys of a
wallet are read through a cache: requests look it up, read the keys and fill it
in separate sections, and a registration stores its key before it empties the
wallet's entry. Any number of requests and registrations run beside each other.
-/

namespace SuperAgent.Platform

open Chain (decodeHex trimHexPrefix)

/-- What is used of cryptography and of the calendar. -/
structure Primitives where
  sum256 : List Nat → List Nat
  /-- Whether a key made a signature of a message. -/
  verify : List Nat → String → List Nat → Bool
  /-- The address that signed a message. -/
  recoverPersonal : String → List Nat → Option (List Nat)
  parseRFC3339 : String → Option Time
  formatRFC3339 : Time → String

-- Keys are looked for among those of a wallet byte by byte.
instance lawfulKey : LawfulBEq (List Nat) := inferInstance

/-- How far a request's time may be from the platform's clock. -/
def authSkew : Duration := 5 * Duration.minute

/-- How old a registration message may be. -/
def registrationWindow : Duration := 10 * Duration.minute

/-- How long the keys of a wallet stay cached. -/
def authCacheTTL : Duration := 30 * Duration.second

/-- How much of a body is read. -/
def maxBody : Nat := 64 * 1024

def publicKeySize : Nat := 32

def signatureSize : Nat := 64

/-- Bytes in hexadecimal digits. -/
def encodeHex (bytes : List Nat) : String :=
  String.ofList (bytes.flatMap fun b => [Nat.digitChar (b / 16), Nat.digitChar (b % 16)])

/-- Bytes of hexadecimal text with or without its prefix. -/
def decodePrefixed (s : String) : Option (List Nat) := decodeHex (trimHexPrefix s.toList)

/-- Whether a time is further off than it may be, in either direction. -/
def tooFar (d bound : Duration) : Bool := bound < d ∨ d < -bound

/-! ## Requests -/

/-- What is read of a request: its line, its headers and its body, unless that cannot be read. -/
structure HTTPRequest where
  method : String
  requestURI : String
  account : String
  authKey : String
  authTime : String
  authSignature : String
  body : Option (List Nat)

/-- How a request ends: the handler behind serves it, or it is turned away. -/
inductive Reply
  | served
  | refused (status : Nat) (error message : String)
  deriving DecidableEq

/-- What the request key signs. -/
def signingString (P : Primitives) (method requestURI authTime : String) (body : List Nat) : String :=
  method ++ "\n" ++ requestURI ++ "\n" ++ authTime ++ "\n" ++ encodeHex (P.sum256 body)

def unauthenticated (why : String) : String := "unauthenticated: " ++ why

namespace HTTPRequest

variable (P : Primitives) (r : HTTPRequest)

/-- The wallet a request names, as keys are stored under it. -/
def wallet : String := toLower (trimSpace r.account)

/-- Whether a request is served without a look at its wallet's keys. -/
def Unchecked : Prop := trimSpace r.account = "" ∨ r.method = "OPTIONS"

/-- Check one request of a wallet with registered keys. -/
def verify (registered : List (List Nat)) (now : Time) : Except String Unit := do
  let keyHex := trimSpace r.authKey
  let timeStr := trimSpace r.authTime
  let sigHex := trimSpace r.authSignature
  revertIf (keyHex = "" ∨ timeStr = "" ∨ sigHex = "")
    (unauthenticated "this wallet requires signed requests")
  let pub ← orRevert (unauthenticated "bad X-Auth-Key") (decodePrefixed keyHex)
  revertIf (pub.length ≠ publicKeySize) (unauthenticated "bad X-Auth-Key")
  revertIf (pub ∉ registered) (unauthenticated "this key is not registered for the wallet")
  let ts ← (parseInt timeStr).mapError fun _ => unauthenticated "bad X-Auth-Time"
  revertIf (tooFar (now.sub (Time.unix ts)) authSkew)
    (unauthenticated "request time is off by more than 5m0s")
  let sig ← orRevert (unauthenticated "bad X-Auth-Signature") (decodePrefixed sigHex)
  revertIf (sig.length ≠ signatureSize) (unauthenticated "bad X-Auth-Signature")
  let body ← orRevert (unauthenticated "cannot read body") (r.body.map (List.take (maxBody + 1)))
  revertIf (¬ P.verify pub (signingString P r.method r.requestURI timeStr body) sig)
    (unauthenticated "signature does not match the request")

/-- A request carries a signature of itself by a key. -/
def SignedBy (pub : List Nat) : Prop :=
  decodePrefixed (trimSpace r.authKey) = some pub ∧ pub.length = publicKeySize ∧ ∃ sig body,
    decodePrefixed (trimSpace r.authSignature) = some sig ∧ r.body = some body ∧
      P.verify pub
        (signingString P r.method r.requestURI (trimSpace r.authTime) (body.take (maxBody + 1))) sig

/-- What a request that passes carries. -/
theorem signedBy_of_verify {P : Primitives} {r : HTTPRequest} {registered : List (List Nat)} {now : Time}
    (h : r.verify P registered now = .ok ()) : ∃ pub ∈ registered, r.SignedBy P pub := by
  simp only [verify, bind_eq_ok, revertIf_eq_ok, orRevert_eq_ok, not_not] at h
  obtain ⟨_, -, pub, hpub, _, hsize, _, hknown, ts, -, _, -, sig, hsig, _, -, body, hbody, hverify⟩ := h
  obtain ⟨whole, hwhole, rfl⟩ := Option.map_eq_some_iff.mp hbody
  exact ⟨pub, hknown, hpub, hsize, sig, whole, hsig, hwhole, hverify⟩

/-- The answer to a request that names a wallet, once the wallet's keys are known. -/
def middleware (registered : List (List Nat)) (now : Time) : Reply :=
  if registered = [] then .served
  else match r.verify P registered now with
    | .ok _ => .served
    | .error message => .refused 401 "unauthenticated" message

/-- A wallet with keys is served with a signature by one of them. -/
theorem signedBy_of_served {P : Primitives} {r : HTTPRequest} {registered : List (List Nat)} {now : Time}
    (hne : registered ≠ []) (h : r.middleware P registered now = .served) :
    ∃ pub ∈ registered, r.SignedBy P pub := by
  unfold middleware at h
  rw [if_neg hne] at h
  split at h
  · next hok => exact signedBy_of_verify hok
  · cases h

end HTTPRequest

/-! ## Registrations -/

/-- A registration as it is sent. -/
structure RegisterAuthKey where
  address : String
  publicKey : String
  issuedAt : String
  signature : String

/-- What the wallet signs to bind a request-signing key to itself. -/
def registrationMessage (P : Primitives) (address : String) (publicKey : List Nat) (issuedAt : Time) :
    String :=
  "TradeAgent request-signing key\n" ++ "Wallet: " ++ toLower (trimSpace address) ++ "\n" ++ "Key: " ++
    encodeHex publicKey ++ "\n" ++ "Issued: " ++ P.formatRFC3339 issuedAt

/-- Whether a text is an address as the platform takes them. -/
def isAddress (s : String) : Bool :=
  match s.toList with
  | '0' :: 'x' :: digits => byteLength digits = 40 ∧ (decodeHex digits).isSome
  | _ => false

/-- An address in small letters stays as it is, and has neither a space nor a slash. -/
theorem toLower_of_isAddress {s : String} (h : isAddress s) :
    trimSpace (toLower s) = toLower s ∧ toLower (toLower s) = toLower s ∧
      '/' ∉ (toLower s).toList := by
  have hchars : ∀ c ∈ s.toList,
      c.toLower.toLower = c.toLower ∧ isSpace c.toLower = false ∧ c.toLower ≠ '/' := by
    unfold isAddress at h
    split at h
    · next digits hs =>
      rw [hs]
      obtain ⟨bytes, hbytes⟩ := Option.isSome_iff_exists.mp (of_decide_eq_true h).2
      intro c hc
      rcases List.mem_cons.mp hc with rfl | hc
      · decide
      · rcases List.mem_cons.mp hc with rfl | hc
        · decide
        · exact Chain.toLower_of_fromHexChar (Chain.fromHexChar_of_decodeHex hbytes c hc)
    · cases h
  have hlist : (toLower s).toList = s.toList.map Char.toLower := String.toList_ofList
  refine ⟨trimSpace_eq_self ?_, ?_, ?_⟩
  · rw [hlist]
    intro c hc
    obtain ⟨d, hd, rfl⟩ := List.mem_map.mp hc
    exact (hchars d hd).2.1
  · apply String.toList_inj.mp
    rw [toLower, String.toList_ofList, hlist, List.map_map]
    exact List.map_congr_left fun c hc => (hchars c hc).1
  · rw [hlist]
    intro hslash
    obtain ⟨d, hd, heq⟩ := List.mem_map.mp hslash
    exact (hchars d hd).2.2 heq

/-- The wallet and the key of a registration its wallet signed. -/
def RegisterAuthKey.check (P : Primitives) (r : RegisterAuthKey) (now : Time) :
    Except Reply (String × List Nat) := do
  let invalid (why : String) := Reply.refused 400 "invalid_request" ("platform: invalid request: " ++ why)
  let address := toLower (trimSpace r.address)
  revertIf (¬ isAddress address) (invalid "address must be 0x followed by 40 hex characters")
  let pub ← orRevert (invalid "public_key must be 32 bytes of hex")
    (decodePrefixed (trimSpace r.publicKey))
  revertIf (pub.length ≠ publicKeySize) (invalid "public_key must be 32 bytes of hex")
  let issued ← orRevert (invalid "issued_at must be RFC 3339")
    (P.parseRFC3339 (trimSpace r.issuedAt))
  revertIf (tooFar (now.sub issued) registrationWindow)
    (invalid "registration is older than 10m0s")
  let sig ← orRevert (invalid "signature must be 65 bytes of hex")
    (decodePrefixed (trimSpace r.signature))
  revertIf (sig.length ≠ 65) (invalid "signature must be 65 bytes of hex")
  let signer := P.recoverPersonal (registrationMessage P address pub issued) sig
  revertIf (signer.map (fun bytes => "0x" ++ encodeHex bytes) ≠ some address)
    (.refused 401 "unauthenticated" "the signature was not made by this wallet")
  return (address, pub)

/-- A registration that passes names a wallet. -/
theorem address_ne_empty {P : Primitives} {r : RegisterAuthKey} {now : Time} {address : String}
    {publicKey : List Nat} (h : r.check P now = .ok (address, publicKey)) : address ≠ "" := by
  simp only [RegisterAuthKey.check, bind_eq_ok, revertIf_eq_ok, not_not] at h
  obtain ⟨_, haddress, _, -, _, -, _, -, _, -, _, -, _, -, _, -, heq⟩ := h
  obtain ⟨hsame, -⟩ := Prod.mk.inj (Except.ok.inj heq)
  rw [hsame] at haddress
  rintro rfl
  exact absurd haddress (by decide)

end SuperAgent.Platform
