import SuperAgent.Core.Folding
import SuperAgent.Core.Run
import SuperAgent.Eip712.Digest
import SuperAgent.Keys.Pending
import SuperAgent.Platform.Service

/-!
# Enrolling exchange keys

A key is enrolled in two calls. The first asks the venue for a sign-in message
and for the document that binds the key to a wallet under our builder terms, and
hands both to the wallet; the second takes what the wallet signed, signs it in,
proves possession of the key over the document's digest, and keeps the key the
venue answers with. Any number of calls run beside each other, the venue answers
what it will, and the process may end between any two of their steps.
-/

namespace SuperAgent.Platform

open Chain (decodeHex trimHexPrefix)
open Keys (AuthPayload Ed25519 Key PendingError PendingRequest Waiting Waitings)

/-- What is read in a document, and what its digest is made with. -/
structure Documents where
  builderTerms : List UInt8 → Option (ℤ × ℤ)
  statement : List UInt8 → String
  salt : List UInt8 → String
  parse : List UInt8 → Option Eip712.TypedData
  keccak : Chain.Hasher
  memory : Eip712.Memory

/-- The digest a wallet signs of a document, and the new key after it. -/
def Documents.digest (D : Documents) (typedData : List UInt8) : Option (List Nat) := do
  let td ← D.parse typedData
  let hash ← (Eip712.digest td D.keccak D.memory).toOption
  return hash.bytes.map UInt8.toNat

/-- Enrollment for one builder code, with the ceiling every key is enrolled with. -/
structure Enrollment where
  builderID : ℤ
  maxFee : ℤ
  code : 1 ≤ builderID ∧ builderID ≤ 255
  ceiling : 0 ≤ maxFee ∧ maxFee ≤ 100

/-- Wires enrollment up, for a code and a ceiling in range. -/
def newEnrollment (builderID maxFeePer100K : ℤ) : Except String Enrollment :=
  if hcode : 1 ≤ builderID ∧ builderID ≤ 255 then
    if hfee : 0 ≤ maxFeePer100K ∧ maxFeePer100K ≤ 100 then
      .ok ⟨builderID, maxFeePer100K, hcode, hfee⟩
    else .error ("platform: max builder fee " ++ toString maxFeePer100K ++ " out of range 0..100")
  else .error ("platform: builder id " ++ toString builderID ++ " out of range 1..255")

/-! ## Requests and answers -/

/-- What the first call is given. -/
structure PayloadRequest where
  address : String
  strategy : String
  label : String
  publicKey : List Nat

/-- The key the venue is asked to make a document for. -/
structure EnrollmentRequest where
  address : String
  publicKey : List Nat
  scopeMask : ℕ
  label : String
  builderID : ℤ
  maxBuilderFeePer100K : ℤ

/-- What the app needs to ask the wallet for its signatures. -/
structure PayloadResult where
  handle : String
  strategy : String
  publicKey : String
  signInMessage : String
  typedData : List UInt8
  statement : String
  builderID : ℤ
  maxFee : ℤ
  expiresAt : Time

/-- What the second call is given. -/
structure EnrollRequest where
  handle : String
  signInSignature : String
  walletSignature : String
  privateKey : String

/-- The enrolled key as the venue describes it. -/
structure APIKeyInfo where
  apiKey : String
  label : String
  builderID : ℤ
  maxBuilderFeePer100K : ℤ
  maxBuilderFeePct : String

/-- Why a call fails. -/
inductive EnrollError
  | invalid (text : String)
  | pending (e : PendingError)
  | venue (text : String)
  | terms (found : Option (ℤ × ℤ))
  | digest

def scopeRead : ℕ := 1
def scopeTrade : ℕ := 2

/-- A sign-in message the venue answers with. -/
def walletAuthPayload (address : String) (answer : Except String AuthPayload) :
    Except EnrollError AuthPayload :=
  if address = "" then .error (.venue "perpl: wallet address is required")
  else match answer with
    | .error text => .error (.venue text)
    | .ok auth =>
      if auth.message = "" ∨ auth.mac = "" then
        .error (.venue "perpl: auth payload is missing message or mac")
      else .ok auth

/-- A document the venue answers with, and what is echoed back with it. -/
def enrollmentPayload (req : EnrollmentRequest) (answer : Except String (List UInt8 × String)) :
    Except EnrollError (List UInt8 × String) :=
  if req.publicKey.length ≠ Ed25519.publicKeySize then
    .error (.venue "perpl: public key must be 32 bytes")
  else if req.address = "" ∨ req.label = "" then
    .error (.venue "perpl: enrollment needs a wallet address and a label")
  else match answer with
    | .error text => .error (.venue text)
    | .ok (typedData, mac) =>
      if typedData.length = 0 ∨ mac = "" then
        .error (.venue "perpl: payload response is missing typed_data or mac")
      else .ok (typedData, mac)

/-- A key the venue answers with. -/
def enrolledInfo (answer : Except String APIKeyInfo) : Except EnrollError APIKeyInfo :=
  match answer with
  | .error text => .error (.venue text)
  | .ok info =>
    if info.apiKey = "" then .error (.venue "perpl: enroll response carries no api_key")
    else .ok info

/-- A signature in hexadecimal, of sixty-five bytes. -/
def SignatureText (sig : String) : Prop := ['0', 'x'] <+: sig.toList ∧ byteLength sig.toList = 132

instance (sig : String) : Decidable (SignatureText sig) := inferInstanceAs (Decidable (_ ∧ _))

/-- The private key of an enrollment: its own, or the one the device hands over for the public key
it named before. -/
def pairKey (E : Ed25519) (p : Keys.Pending) (privateKey : String) : Except EnrollError Keys.Pending :=
  let text := trimSpace privateKey
  if p.derived ∧ text = "" then
    .error (.invalid "a derived key needs its private key to complete enrollment")
  else if ¬ p.derived ∧ text ≠ "" then
    .error (.invalid "this enrollment's key was generated by the platform")
  else if p.derived then
    match decodeHex (trimHexPrefix text.toList) with
    | none => .error (.invalid "private key must be 32 bytes of hex")
    | some seed =>
      if seed.length ≠ Ed25519.seedSize then .error (.invalid "private key must be 32 bytes of hex")
      else if Ed25519.publicOf (E.newKeyFromSeed seed) ≠ p.publicKey then
        .error (.invalid "private key does not match the enrolled public key")
      else .ok { p with privateKey := E.newKeyFromSeed seed }
  else .ok p

/-- The label a key is enrolled with: the strategy's, which the user sees when revoking one. -/
def PayloadRequest.keyLabel (req : PayloadRequest) : Except EnrollError String :=
  if trimSpace req.strategy = "" then
    .ok (if trimSpace req.label = "" then "TradeAgent" else trimSpace req.label)
  else match lookup (trimSpace req.strategy) with
    | none => .error (.invalid ("unknown strategy " ++ (trimSpace req.strategy).quote))
    | some info => .ok ("TradeAgent · " ++ info.name)

/-- The label of a request that can be served. -/
def PayloadRequest.check (req : PayloadRequest) : Except EnrollError String :=
  if ¬ isAddress (trimSpace req.address) then
    .error (.invalid "address must be 0x followed by 40 hex characters")
  else match req.keyLabel with
    | .error e => .error e
    | .ok label =>
      if 0 < req.publicKey.length ∧ req.publicKey.length ≠ Ed25519.publicKeySize then
        .error (.invalid "public key must be 32 bytes")
      else .ok label

/-! ## Calls -/

/-- What the second call signed the wallet in with, and when it took the enrollment. -/
structure Finish where
  call : ℕ
  handle : String
  signInSignature : String
  walletSignature : String
  takenAt : Time

/-- An enrollment as it is submitted: with its private key, the wallet's signatures, and the
signature of the new key. -/
structure Submission where
  waiting : Waiting
  finish : Finish
  popSignature : List Nat

/-- Where a call is. -/
inductive EnrollStage
  | uncalled
  | refused (e : EnrollError)
  /-- About to ask for the sign-in message. -/
  | greeting (req : PayloadRequest) (asked : EnrollmentRequest) (p : Keys.Pending)
  /-- About to ask for the document. -/
  | asking (req : PayloadRequest) (asked : EnrollmentRequest) (p : Keys.Pending)
  /-- A document with our terms is there. -/
  | registering (req : PayloadRequest) (asked : EnrollmentRequest) (p : Keys.Pending)
  | issued (req : PayloadRequest) (asked : EnrollmentRequest) (p : Keys.Pending) (r : PayloadResult)
  /-- About to sign the wallet in. -/
  | taken (w : Waiting) (f : Finish)
  | signedIn (s : Submission)
  | submitted (s : Submission)
  | confirmed (s : Submission) (info : APIKeyInfo)
  | enrolled (k : Key)
  /-- Its process ended. -/
  | lost

/-- What comes next in a call. -/
inductive EnrollMove
  | payload (req : PayloadRequest) (seed : Ed25519.Seed) (handle : List Nat)
  | greeted (answer : Except String AuthPayload)
  | answered (answer : Except String (List UInt8 × String))
  | register
  | enroll (req : EnrollRequest)
  | connected (answer : Except String Unit)
  | submit
  | confirm (answer : Except String APIKeyInfo)
  /-- The key is kept, in memory and where it lasts unless that fails. -/
  | put (persisted : Bool)

/-- What the calls share, and what has happened: the enrollments that were taken, the sign-ins the
venue accepted, what was submitted and what the venue answered it with. -/
structure EnrollDesk where
  now : Time
  waiting : Waitings
  keys : Keys.Store
  saved : Keys.Store
  taken : List ℕ
  signIns : List (String × AuthPayload × String)
  submissions : List Submission
  confirmed : List (Submission × APIKeyInfo)

/-- The result of the first call. -/
def payloadResult (D : Documents) (p : Keys.Pending) : PayloadResult where
  handle := p.handle
  strategy := p.strategy
  publicKey := "0x" ++ encodeHex p.publicKey
  signInMessage := p.auth.message
  typedData := p.typedData
  statement := D.statement p.typedData
  builderID := p.builderID
  maxFee := p.maxFee
  expiresAt := p.expiresAt

/-- The key of an enrollment the venue confirmed. -/
def enrolledKey (p : Keys.Pending) (info : APIKeyInfo) (now : Time) : Key where
  address := p.address
  strategy := p.strategy
  apiKey := info.apiKey
  privateKey := p.privateKey
  label := info.label
  builderID := info.builderID
  maxBuilderFeePer100K := info.maxBuilderFeePer100K
  maxBuilderFeePct := info.maxBuilderFeePct
  derived := p.derived
  enrolledAt := now

/-- The key a request is prepared with, and what the venue is asked for. -/
def Enrollment.prepare (e : Enrollment) (E : Ed25519) (now : Time) (req : PayloadRequest)
    (seed : Ed25519.Seed) (handle : List Nat) : Except EnrollError (EnrollmentRequest × Keys.Pending) :=
  match req.check with
  | .error x => .error x
  | .ok label =>
    let address := trimSpace req.address
    let pending : PendingRequest :=
      ⟨address, trimSpace req.strategy, label, e.builderID, e.maxFee, req.publicKey⟩
    match Keys.preparePending E now pending seed handle with
    | .error x => .error (.pending x)
    | .ok p =>
      .ok (⟨address, p.publicKey, scopeRead ||| scopeTrade, label, e.builderID, e.maxFee⟩, p)

/-- A document with the terms it has to carry, and its enrollment. -/
def Enrollment.accept (e : Enrollment) (D : Documents) (asked : EnrollmentRequest) (p : Keys.Pending)
    (answer : Except String (List UInt8 × String)) : Except EnrollError Keys.Pending :=
  match enrollmentPayload asked answer with
  | .error x => .error x
  | .ok (typedData, mac) =>
    if D.builderTerms typedData = some (e.builderID, e.maxFee) then
      .ok { p with typedData := typedData, mac := mac, salt := D.salt typedData }
    else .error (.terms (D.builderTerms typedData))

/-- What a call goes on with when a part of it succeeds. -/
def orRefused {α : Type} (d : EnrollDesk) (r : Except EnrollError α)
    (go : α → EnrollDesk × EnrollStage) : Option (EnrollDesk × EnrollStage) :=
  match r with
  | .ok a => some (go a)
  | .error e => some (d, .refused e)

/-- The next step of a call. -/
def Enrollment.advance (e : Enrollment) (E : Ed25519) (D : Documents) (i : ℕ) (d : EnrollDesk) :
    EnrollStage → EnrollMove → Option (EnrollDesk × EnrollStage)
  | .uncalled, .payload req seed handle =>
    orRefused d (e.prepare E d.now req seed handle) fun (asked, p) => (d, .greeting req asked p)
  | .greeting req asked p, .greeted answer =>
    orRefused d (walletAuthPayload asked.address answer) fun auth =>
      (d, .asking req asked { p with auth := auth })
  | .asking req asked p, .answered answer =>
    orRefused d (e.accept D asked p answer) fun p => (d, .registering req asked p)
  | .registering req asked p, .register =>
    some ({ d with waiting := d.waiting.register d.now ⟨i, p⟩ },
      .issued req asked p (payloadResult D p))
  | .uncalled, .enroll req =>
    let signIn := trimSpace req.signInSignature
    let wallet := trimSpace req.walletSignature
    if ¬ SignatureText signIn ∨ ¬ SignatureText wallet then
      some (d, .refused (.invalid "signatures must be 0x-hex, 65 bytes"))
    else
      let rest := (d.waiting.takePending d.now req.handle).2
      match (d.waiting.takePending d.now req.handle).1 with
      | .error x => some ({ d with waiting := rest }, .refused (.pending x))
      | .ok w =>
        orRefused { d with waiting := rest, taken := w.call :: d.taken }
          (pairKey E w.pending req.privateKey) fun p =>
            ({ d with waiting := rest, taken := w.call :: d.taken },
              .taken { w with pending := p } ⟨i, req.handle, signIn, wallet, d.now⟩)
  | .taken w f, .connected answer =>
    match answer with
    | .error text => some (d, .refused (.venue ("wallet sign-in: " ++ text)))
    | .ok () =>
      match D.digest w.pending.typedData with
      | none => some (d, .refused .digest)
      | some hash =>
        some ({ d with
            signIns := (w.pending.address, w.pending.auth, f.signInSignature) :: d.signIns },
          .signedIn ⟨w, f, E.sign w.pending.privateKey hash⟩)
  | .signedIn s, .submit => some ({ d with submissions := s :: d.submissions }, .submitted s)
  | .submitted s, .confirm answer =>
    orRefused d (enrolledInfo answer) fun info =>
      ({ d with confirmed := (s, info) :: d.confirmed }, .confirmed s info)
  | .confirmed s info, .put persisted =>
    let k := enrolledKey s.waiting.pending info d.now
    some ({ d with keys := d.keys.put k, saved := if persisted then d.saved.put k else d.saved },
      .enrolled k)
  | _, _ => none

/-- What is left of a call when its process ends. -/
def EnrollStage.cut : EnrollStage → EnrollStage
  | .uncalled => .uncalled
  | .refused e => .refused e
  | .issued req asked p r => .issued req asked p r
  | .enrolled k => .enrolled k
  | _ => .lost

/-- What is shared, and the calls. -/
structure Enrollments where
  desk : EnrollDesk
  calls : ℕ → EnrollStage

/-- What happens next: the clock advances, a call goes on, or the process ends and another
begins. -/
inductive EnrollAction
  | tick (t : Time)
  | call (i : ℕ) (move : EnrollMove)
  | restart

namespace Enrollments

/-- Before the first call, with the keys that are kept. -/
def start (now : Time) (saved : Keys.Store) : Enrollments :=
  ⟨⟨now, [], Keys.Store.withBackend saved, saved, [], [], [], []⟩, fun _ => .uncalled⟩

def step (e : Enrollment) (E : Ed25519) (D : Documents) (s : Enrollments) :
    EnrollAction → Option Enrollments
  | .tick t => if s.desk.now ≤ t then some { s with desk := { s.desk with now := t } } else none
  | .call i move => (e.advance E D i s.desk (s.calls i) move).map fun p =>
      ⟨p.1, Function.update s.calls i p.2⟩
  | .restart =>
    some ⟨{ s.desk with waiting := [], keys := Keys.Store.withBackend s.desk.saved },
      fun i => (s.calls i).cut⟩

end Enrollments

end SuperAgent.Platform
