import SuperAgent.Core.Base64
import SuperAgent.Platform.Signatures

/-!
# Signing at the venue

The enrolled key signs two kinds of text, each a list of lines: one for a
request over HTTP and one for the sign-in on the trading socket. A key is read
from its seed or from the whole of it.
-/

namespace SuperAgent.Perpl

open Fixed (formatInt)
open Keys (Ed25519)
open Platform (Bytes decodePrefixed encodeHex not_newline_encodeHex encodeHex_inj)

/-! ## The texts -/

def wsSignInTag : String := "trading-ws-signin"

/-- The six lines of a request. -/
def restCanonical (sum256 : List Nat → List Nat) (chainID : Int64)
    (method target timestamp nonce : String) (body : List Nat) : String :=
  "\n".intercalate
    [formatInt chainID, method, target, timestamp, nonce, encodeHex (sum256 body)]

/-- The four lines of a sign-in. -/
def wsCanonical (chainID : Int64) (timestamp nonce : String) : String :=
  "\n".intercalate [formatInt chainID, wsSignInTag, timestamp, nonce]

/-- The time and the nonce of a signature, from the clock and sixteen random bytes. -/
structure Stamp where
  timestamp : String
  nonce : String

def stamp (now : Time) (random : List UInt8) : Stamp :=
  ⟨formatInt now.toUnixMilli, String.ofList (Base64.encode random)⟩

/-! ## The signer -/

/-- Why a secret is not read. -/
inductive SecretError
  | notHex
  | size (n : ℕ)
  deriving DecidableEq

def privateKeySize : ℕ := 64

/-- The enrolled key. -/
structure Signer where
  apiKey : String
  key : List Nat
  chainID : Int64
  deriving DecidableEq

def newSigner (E : Ed25519) (apiKey secretHex : String) (chainID : Int64) :
    Except SecretError Signer :=
  match decodePrefixed secretHex with
  | none => .error .notHex
  | some raw =>
    if raw.length = Ed25519.seedSize then .ok ⟨apiKey, E.newKeyFromSeed raw, chainID⟩
    else if raw.length = privateKeySize then .ok ⟨apiKey, raw, chainID⟩
    else .error (.size raw.length)

/-- The bytes of a text as a signature is made of them. -/
def signedBytes (text : String) : List Nat := (utf8 text).map UInt8.toNat

/-- A signature as it is sent. -/
def signatureText (sig : List Nat) : String := String.ofList (Base64.encode (sig.map UInt8.ofNat))

/-- The first frame on the trading socket. -/
structure APIKeySignIn where
  msgType : ℕ
  chainID : Int64
  apiKey : String
  timestamp : String
  nonce : String
  signature : String
  deriving DecidableEq

def msgAPIKeySignIn : ℕ := 29

namespace Signer

variable (E : Ed25519) (s : Signer)

def signInFrame (st : Stamp) : APIKeySignIn where
  msgType := msgAPIKeySignIn
  chainID := s.chainID
  apiKey := s.apiKey
  timestamp := st.timestamp
  nonce := st.nonce
  signature := signatureText (E.sign s.key (signedBytes (wsCanonical s.chainID st.timestamp st.nonce)))

def restHeaders (sum256 : List Nat → List Nat) (st : Stamp) (method target : String)
    (body : List Nat) : List (String × String) :=
  [("X-API-Key", s.apiKey), ("X-API-Timestamp", st.timestamp), ("X-API-Nonce", st.nonce),
    ("X-API-Signature", signatureText (E.sign s.key
      (signedBytes (restCanonical sum256 s.chainID method target st.timestamp st.nonce body))))]

end Signer

/-- The signer of a stored key. -/
def signerOf (E : Ed25519) (k : Keys.Key) (chainID : Int64) : Except SecretError Signer :=
  newSigner E k.apiKey (encodeHex k.privateKey) chainID

/-! ## The texts name what they are for -/

section Texts

variable {sum256 : List Nat → List Nat} {chainID chainID' : Int64} {now now' : Time}
  {random random' : List UInt8} {method method' target target' : String} {body body' : List Nat}

theorem not_newline_formatInt (v : Int64) : '\n' ∉ (formatInt v).toList :=
  not_newline_of_parseInt (Fixed.parseInt_formatInt v)

theorem formatInt_inj {v w : Int64} (h : formatInt v = formatInt w) : v = w := by
  have hread := Fixed.parseInt_formatInt v
  rw [h, Fixed.parseInt_formatInt w] at hread
  exact (Except.ok.inj hread).symm

theorem not_newline_encode (bs : List UInt8) : '\n' ∉ (String.ofList (Base64.encode bs)).toList := by
  rw [String.toList_ofList]
  intro hin
  obtain ⟨n, hn, hletter⟩ := List.mem_map.mp hin
  exact (Base64.sextet_letter n (Base64.lt_of_mem_sextets bs hn)).2.1 (by rw [hletter]; rfl)

theorem encode_inj {bs cs : List UInt8}
    (h : String.ofList (Base64.encode bs) = String.ofList (Base64.encode cs)) : bs = cs := by
  have hread := Base64.decode_encode bs
  rw [String.ofList_inj.mp h, Base64.decode_encode] at hread
  exact (Option.some.inj hread).symm

/-- A text of six lines and one of four are different, and texts of one kind have the same chain,
request, time and nonce: a signature made for one request or sign-in is not one for another. -/
theorem canonicals_apart (hsum : ∀ m, Bytes (sum256 m))
    (hline : '\n' ∉ method.toList ∧ '\n' ∉ target.toList)
    (hline' : '\n' ∉ method'.toList ∧ '\n' ∉ target'.toList) :
    (restCanonical sum256 chainID method target (stamp now random).timestamp
          (stamp now random).nonce body =
        restCanonical sum256 chainID' method' target' (stamp now' random').timestamp
          (stamp now' random').nonce body' →
      chainID = chainID' ∧ method = method' ∧ target = target' ∧
        now.toUnixMilli = now'.toUnixMilli ∧ random = random' ∧ sum256 body = sum256 body') ∧
    (wsCanonical chainID (stamp now random).timestamp (stamp now random).nonce =
        wsCanonical chainID' (stamp now' random').timestamp (stamp now' random').nonce →
      chainID = chainID' ∧ now.toUnixMilli = now'.toUnixMilli ∧ random = random') ∧
    restCanonical sum256 chainID method target (stamp now random).timestamp
        (stamp now random).nonce body ≠
      wsCanonical chainID' (stamp now' random').timestamp (stamp now' random').nonce := by
  have hrest (c : Int64) (t : Time) (r : List UInt8) (m tg : String) (b : List Nat)
      (hl : '\n' ∉ m.toList ∧ '\n' ∉ tg.toList) :
      ∀ f ∈ [formatInt c, m, tg, (stamp t r).timestamp, (stamp t r).nonce, encodeHex (sum256 b)],
        '\n' ∉ f.toList := by
    simp only [List.forall_mem_cons, stamp]
    exact ⟨not_newline_formatInt c, hl.1, hl.2, not_newline_formatInt _, not_newline_encode r,
      not_newline_encodeHex (hsum b), fun f hf => by cases hf⟩
  have hws (c : Int64) (t : Time) (r : List UInt8) :
      ∀ f ∈ [formatInt c, wsSignInTag, (stamp t r).timestamp, (stamp t r).nonce],
        '\n' ∉ f.toList := by
    simp only [List.forall_mem_cons, stamp]
    exact ⟨not_newline_formatInt c, by decide, not_newline_formatInt _, not_newline_encode r,
      fun f hf => by cases hf⟩
  refine ⟨fun h => ?_, fun h => ?_, fun h => ?_⟩
  · have hlines := lines_inj (hrest _ _ _ _ _ _ hline) (hrest _ _ _ _ _ _ hline')
      (List.cons_ne_nil _ _) (List.cons_ne_nil _ _) h
    simp only [List.cons.injEq, and_true] at hlines
    obtain ⟨hchain, hmethod, htarget, htime, hnonce, hbody⟩ := hlines
    exact ⟨formatInt_inj hchain, hmethod, htarget, formatInt_inj htime, encode_inj hnonce,
      encodeHex_inj (hsum body) (hsum body') hbody⟩
  · have hlines := lines_inj (hws _ _ _) (hws _ _ _) (List.cons_ne_nil _ _) (List.cons_ne_nil _ _) h
    simp only [List.cons.injEq, and_true, true_and] at hlines
    obtain ⟨hchain, htime, hnonce⟩ := hlines
    exact ⟨formatInt_inj hchain, formatInt_inj htime, encode_inj hnonce⟩
  · have hlines := lines_inj (hrest _ _ _ _ _ _ hline) (hws _ _ _) (List.cons_ne_nil _ _)
      (List.cons_ne_nil _ _) h
    simp at hlines

theorem canonicals_apart_fills :
    let sum256 := fun _ => Platform.emptySum
    let st := stamp Platform.newYear ((List.range 16).map UInt8.ofNat)
    (restCanonical sum256 10143 "GET" "/v1/trading/fills?count=1" st.timestamp st.nonce [] =
        restCanonical sum256 10143 "GET" "/v1/trading/fills?count=1" st.timestamp st.nonce [] →
      (10143 : Int64) = 10143 ∧ "GET" = "GET" ∧
        "/v1/trading/fills?count=1" = "/v1/trading/fills?count=1" ∧
        Platform.newYear.toUnixMilli = Platform.newYear.toUnixMilli ∧
        (List.range 16).map UInt8.ofNat = (List.range 16).map UInt8.ofNat ∧
        sum256 [] = sum256 []) ∧
    (wsCanonical 10143 st.timestamp st.nonce = wsCanonical 10143 st.timestamp st.nonce →
      (10143 : Int64) = 10143 ∧ Platform.newYear.toUnixMilli = Platform.newYear.toUnixMilli ∧
        (List.range 16).map UInt8.ofNat = (List.range 16).map UInt8.ofNat) ∧
    restCanonical sum256 10143 "GET" "/v1/trading/fills?count=1" st.timestamp st.nonce [] ≠
      wsCanonical 10143 st.timestamp st.nonce := by
  have hline : '\n' ∉ "GET".toList ∧ '\n' ∉ "/v1/trading/fills?count=1".toList := by decide +kernel
  exact canonicals_apart (fun _ => Platform.bytes_emptySum) hline hline

end Texts

/-! ## The sign-in is accepted -/

section SignIn

variable {E : Ed25519} {seed : Ed25519.Seed}

/-- The keys and signatures of Ed25519 as they are. -/
structure Shaped (E : Ed25519) (seed : Ed25519.Seed) : Prop where
  seedBytes : Bytes seed.val
  key : Bytes (E.newKeyFromSeed seed) ∧ (E.newKeyFromSeed seed).length = privateKeySize
  signature : ∀ msg, Bytes (E.sign (E.newKeyFromSeed seed) msg)

theorem map_ofNat_toNat {bytes : List Nat} (h : Bytes bytes) :
    (bytes.map UInt8.ofNat).map UInt8.toNat = bytes := by
  rw [List.map_map]
  refine (List.map_congr_left fun b hb => ?_).trans (List.map_id _)
  exact UInt8.toNat_ofNat_of_lt' (h b hb)

/-- The signer of a stored key signs in as that key, whether it is read from its seed or from the
whole of it, and the venue can check the frame by what it carries. -/
theorem sign_in_accepted (hE : E.Lawful) (hshape : Shaped E seed) {k : Keys.Key}
    (hk : k.privateKey = E.newKeyFromSeed seed) (chainID : Int64) :
    ∃ s, signerOf E k chainID = .ok s ∧
      newSigner E k.apiKey ("0x" ++ encodeHex seed.val) chainID = .ok s ∧
      ∀ st, ∃ sig, (Base64.decode (s.signInFrame E st).signature.toList).map (List.map UInt8.toNat) =
          some sig ∧
        (s.signInFrame E st).apiKey = k.apiKey ∧
        E.verify (Ed25519.publicOf k.privateKey) (signedBytes (wsCanonical
          (s.signInFrame E st).chainID (s.signInFrame E st).timestamp (s.signInFrame E st).nonce))
          sig = true := by
  have hwhole : decodePrefixed (encodeHex k.privateKey) = some (E.newKeyFromSeed seed) := by
    rw [hk, Platform.decodePrefixed_encodeHex hshape.key.1]
  have hpart : decodePrefixed ("0x" ++ encodeHex seed.val) = some seed.val :=
    Platform.decodePrefixed_0x hshape.seedBytes
  refine ⟨⟨k.apiKey, E.newKeyFromSeed seed, chainID⟩, ?_, ?_, fun st => ?_⟩
  · have hnot : ¬ (E.newKeyFromSeed seed).length = Ed25519.seedSize := by
      rw [hshape.key.2]
      decide
    simp only [signerOf, newSigner, hwhole, if_neg hnot, if_pos hshape.key.2]
  · simp only [newSigner, hpart, if_pos seed.property]
  · let text := signedBytes (wsCanonical chainID st.timestamp st.nonce)
    refine ⟨E.sign (E.newKeyFromSeed seed) text, ?_, rfl, ?_⟩
    · have hsig := map_ofNat_toNat (hshape.signature text)
      simp only [Signer.signInFrame, signatureText, String.toList_ofList, Base64.decode_encode,
        Option.map_some]
      exact congrArg some hsig
    · rw [hk]
      exact hE.verify_sign seed text

/-- A sign-in with the pair of a request, and what the pair makes of it. -/
def signInSignature : List Nat :=
  [215, 58, 246, 239, 200, 73, 73, 151, 106, 114, 51, 108, 109, 179, 185, 38, 184, 73, 254, 229, 135,
    167, 116, 100, 174, 189, 55, 24, 193, 217, 114, 226, 95, 118, 241, 71, 133, 212, 109, 46, 148, 30,
    170, 251, 117, 72, 31, 16, 206, 185, 242, 233, 70, 29, 200, 57, 147, 100, 187, 158, 106, 40, 87, 8]

def signInPair : Ed25519 where
  newKeyFromSeed seed := seed ++ Platform.requestKey
  sign _ _ := signInSignature
  verify _ _ sig := sig = signInSignature

theorem bytes_requestSeed : Bytes Platform.requestSeed.val := by
  unfold Bytes
  decide

theorem bytes_signInSignature : Bytes signInSignature := by
  unfold Bytes
  decide

theorem shaped_signInPair : Shaped signInPair Platform.requestSeed where
  seedBytes := bytes_requestSeed
  key := ⟨fun b hb => (List.mem_append.mp hb).elim (bytes_requestSeed b)
    (Platform.bytes_requestKey b), rfl⟩
  signature _ := bytes_signInSignature

/-- The key of a wallet here. -/
def signInKey : Keys.Key where
  address := "0x7e5f4552091a69125d5dfcb7b8c2659029395bdf"
  strategy := "donchian"
  apiKey := "key"
  privateKey := signInPair.newKeyFromSeed Platform.requestSeed
  label := ""
  builderID := 0
  maxBuilderFeePer100K := 0
  maxBuilderFeePct := ""
  derived := false
  enrolledAt := Platform.newYear

theorem sign_in_accepted_newYear :
    ∃ s, signerOf signInPair signInKey 10143 = .ok s ∧
      newSigner signInPair "key" ("0x" ++ encodeHex Platform.requestSeed.val) 10143 = .ok s ∧
      ∀ st, ∃ sig, (Base64.decode (s.signInFrame signInPair st).signature.toList).map
          (List.map UInt8.toNat) = some sig ∧
        (s.signInFrame signInPair st).apiKey = "key" ∧
        signInPair.verify (Ed25519.publicOf signInKey.privateKey) (signedBytes (wsCanonical
          (s.signInFrame signInPair st).chainID (s.signInFrame signInPair st).timestamp
          (s.signInFrame signInPair st).nonce)) sig = true :=
  sign_in_accepted ⟨fun _ _ => by simp [signInPair]⟩ shaped_signInPair (k := signInKey) rfl 10143

end SignIn

end SuperAgent.Perpl
