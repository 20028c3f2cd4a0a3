import SuperAgent.Chain.Personal
import SuperAgent.Core.Folding
import SuperAgent.Fixed.Printing
import SuperAgent.Keys.Pending
import SuperAgent.Platform.Auth

/-!
# What wallets and their devices sign

A wallet binds a request-signing key to itself by signing a message that names
both, and the key signs every request. What was signed for one registration or
request is not what would be signed for another. A registration that its wallet
signed passes while it is recent, and so does a request its key signed.
-/

namespace SuperAgent.Platform

open Chain (Hasher Secp256k1 decodeHex fromHexChar trimHexPrefix)
open Fixed (formatInt)
open Keys (Ed25519)

/-! ## Hexadecimal text is read back -/

/-- Numbers that are bytes. -/
def Bytes (bytes : List Nat) : Prop := ∀ b ∈ bytes, b < 256

variable {bytes bytes' : List Nat} {c : Char}

/-- A digit stands for its value, and is a small letter of one byte and no space. -/
theorem hex_digit : ∀ d < 16, fromHexChar (Nat.digitChar d) = some d ∧
    (Nat.digitChar d).toLower = Nat.digitChar d ∧ isSpace (Nat.digitChar d) = false ∧
    Nat.digitChar d ≠ 'x' ∧ (Nat.digitChar d).utf8Size = 1 := by
  decide

theorem lt_of_fromHexChar {n : Nat} (h : fromHexChar c = some n) : n < 16 := by
  have hsmall : ∀ m < 103, ∀ n, fromHexChar (Char.ofNat m) = some n → n < 16 := by decide +kernel
  have hc := hsmall c.toNat (Chain.toNat_lt_of_fromHexChar (h ▸ nofun)) n
  rw [Char.ofNat_toNat] at hc
  exact hc h

theorem bytes_of_decodeHex : ∀ {cs : List Char} {bytes : List Nat}, decodeHex cs = some bytes →
    Bytes bytes
  | [], _, h => by
    obtain rfl := Option.some.inj h
    exact fun b hb => by cases hb
  | [_], _, h => by cases h
  | a :: b :: cs, _, h => by
    rw [decodeHex] at h
    obtain ⟨hi, ha, h⟩ := Option.bind_eq_some_iff.mp h
    obtain ⟨lo, hb, h⟩ := Option.bind_eq_some_iff.mp h
    obtain ⟨rest, hrest, h⟩ := Option.bind_eq_some_iff.mp h
    obtain rfl := Option.some.inj h
    have hhigh := lt_of_fromHexChar ha
    have hlow := lt_of_fromHexChar hb
    exact List.forall_mem_cons.mpr ⟨by omega, bytes_of_decodeHex hrest⟩

theorem toList_encodeHex (bytes : List Nat) : (encodeHex bytes).toList =
    bytes.flatMap fun b => [Nat.digitChar (b / 16), Nat.digitChar (b % 16)] :=
  String.toList_ofList

theorem mem_encodeHex (h : Bytes bytes) (hc : c ∈ (encodeHex bytes).toList) :
    c.toLower = c ∧ isSpace c = false ∧ c ≠ 'x' ∧ c.utf8Size = 1 := by
  rw [toList_encodeHex] at hc
  obtain ⟨b, hb, hc⟩ := List.mem_flatMap.mp hc
  have hb := h b hb
  simp only [List.mem_cons, List.not_mem_nil, or_false] at hc
  rcases hc with rfl | rfl
  · exact (hex_digit (b / 16) (by omega)).2
  · exact (hex_digit (b % 16) (by omega)).2

theorem length_encodeHex (bytes : List Nat) : (encodeHex bytes).toList.length = 2 * bytes.length := by
  rw [toList_encodeHex, List.length_flatMap]
  simp [Nat.mul_comm]

/-- A digit is one byte. -/
theorem byteLength_encodeHex (h : Bytes bytes) :
    byteLength (encodeHex bytes).toList = 2 * bytes.length := by
  have hone : ∀ c ∈ (encodeHex bytes).toList, c.utf8Size = 1 :=
    fun c hc => (mem_encodeHex h hc).2.2.2
  rw [byteLength, List.map_congr_left hone, ← length_encodeHex]
  simp

theorem decodeHex_encodeHex (h : Bytes bytes) : decodeHex (encodeHex bytes).toList = some bytes := by
  rw [toList_encodeHex]
  induction bytes with
  | nil => rfl
  | cons b bytes ih =>
    have hb := h b List.mem_cons_self
    obtain ⟨hhigh, -⟩ := hex_digit (b / 16) (by omega)
    obtain ⟨hlow, -⟩ := hex_digit (b % 16) (by omega)
    have hrest := ih fun c hc => h c (List.mem_cons_of_mem b hc)
    have hvalue : b / 16 * 16 + b % 16 = b := by omega
    simp [decodeHex, hhigh, hlow, hrest, hvalue]

/-- Hexadecimal text has no prefix. -/
theorem decodePrefixed_encodeHex (h : Bytes bytes) : decodePrefixed (encodeHex bytes) = some bytes := by
  have hx : 'x' ∉ (encodeHex bytes).toList := fun hin => (mem_encodeHex h hin).2.2.1 rfl
  have hprefix : trimHexPrefix (encodeHex bytes).toList = (encodeHex bytes).toList := by
    unfold trimHexPrefix
    split
    · next heq => exact absurd (by simp [heq]) hx
    · rfl
  rw [decodePrefixed, hprefix, decodeHex_encodeHex h]

theorem decodePrefixed_0x (h : Bytes bytes) :
    decodePrefixed ("0x" ++ encodeHex bytes) = some bytes := by
  have hprefix : ("0x" ++ encodeHex bytes).toList = '0' :: 'x' :: (encodeHex bytes).toList := by
    simp
  rw [decodePrefixed, hprefix, trimHexPrefix, decodeHex_encodeHex h]

theorem encodeHex_inj (h : Bytes bytes) (h' : Bytes bytes')
    (heq : encodeHex bytes = encodeHex bytes') : bytes = bytes' := by
  have hback := decodeHex_encodeHex h
  rw [heq, decodeHex_encodeHex h'] at hback
  exact (Option.some.inj hback).symm

theorem trimSpace_encodeHex (h : Bytes bytes) : trimSpace (encodeHex bytes) = encodeHex bytes :=
  trimSpace_eq_self fun _ hc => (mem_encodeHex h hc).2.1

theorem toLower_encodeHex (h : Bytes bytes) : toLower (encodeHex bytes) = encodeHex bytes := by
  apply String.toList_inj.mp
  rw [toLower, String.toList_ofList]
  exact (List.map_congr_left fun _ hc => (mem_encodeHex h hc).1).trans (List.map_id _)

theorem encodeHex_ne_empty (h : bytes ≠ []) : encodeHex bytes ≠ "" := by
  intro hempty
  have hlength := length_encodeHex bytes
  have hpos := List.length_pos_iff.mpr h
  rw [hempty, String.toList_empty, List.length_nil] at hlength
  omega

theorem not_newline_encodeHex (h : Bytes bytes) : '\n' ∉ (encodeHex bytes).toList :=
  fun hin => absurd (mem_encodeHex h hin).2.1 (by decide)

/-! ## What is signed names what it is for -/

/-- A request line is one line. -/
def HTTPRequest.OneLine (r : HTTPRequest) : Prop :=
  '\n' ∉ r.method.toList ∧ '\n' ∉ r.requestURI.toList

/-- What is signed of a request is four lines. -/
theorem signingString_eq (P : Primitives) (method requestURI authTime : String) (body : List Nat) :
    signingString P method requestURI authTime body =
      "\n".intercalate [method, requestURI, authTime, encodeHex (P.sum256 body)] := by
  simp [signingString, String.append_assoc]

/-- What the signature of a request is of has the method, the target, the time and the hash of the
body in it: what is signed for one request is not what is signed for another. -/
theorem request_signature_names_request {P : Primitives} (hP : ∀ m, Bytes (P.sum256 m))
    {r r' : HTTPRequest} {ts ts' : Int64} {body body' : List Nat} (hline : r.OneLine)
    (hline' : r'.OneLine) (hts : parseInt (trimSpace r.authTime) = .ok ts)
    (hts' : parseInt (trimSpace r'.authTime) = .ok ts')
    (hsame : signingString P r.method r.requestURI (trimSpace r.authTime) body =
      signingString P r'.method r'.requestURI (trimSpace r'.authTime) body') :
    r.method = r'.method ∧ r.requestURI = r'.requestURI ∧
      trimSpace r.authTime = trimSpace r'.authTime ∧ P.sum256 body = P.sum256 body' := by
  rw [signingString_eq, signingString_eq] at hsame
  have hlines := lines_inj ?_ ?_ (List.cons_ne_nil _ _) (List.cons_ne_nil _ _) hsame
  · simp only [List.cons.injEq, and_true] at hlines
    obtain ⟨hmethod, huri, htime, hsum⟩ := hlines
    exact ⟨hmethod, huri, htime, encodeHex_inj (hP body) (hP body') hsum⟩
  · simp [hline.1, hline.2, not_newline_of_parseInt hts, not_newline_encodeHex (hP body)]
  · simp [hline'.1, hline'.2, not_newline_of_parseInt hts', not_newline_encodeHex (hP body')]

theorem not_newline_of_isAddress {s : String} (h : isAddress s) : '\n' ∉ s.toList := by
  unfold isAddress at h
  split at h
  · next digits hs =>
    obtain ⟨bytes, hbytes⟩ := Option.isSome_iff_exists.mp (of_decide_eq_true h).2
    rw [hs]
    intro hin
    have hdigit : '\n' ∈ digits := by simpa using hin
    exact Chain.fromHexChar_of_decodeHex hbytes _ hdigit (by decide)
  · cases h

/-- Texts that end their lines, but for the last, are the lines they were joined from. -/
theorem four_lines {s first w k l : String} (hs : s = first ++ "\n") :
    s ++ "Wallet: " ++ w ++ "\n" ++ "Key: " ++ k ++ "\n" ++ "Issued: " ++ l =
      "\n".intercalate [first, "Wallet: " ++ w, "Key: " ++ k, "Issued: " ++ l] := by
  subst hs
  simp only [String.intercalate_cons_cons, String.intercalate_singleton, String.append_assoc]

theorem registrationMessage_eq (P : Primitives) (address : String) (key : List Nat) (issued : Time) :
    registrationMessage P address key issued =
      "\n".intercalate ["TradeAgent request-signing key", "Wallet: " ++ toLower (trimSpace address),
        "Key: " ++ encodeHex key, "Issued: " ++ P.formatRFC3339 issued] :=
  four_lines (by decide +kernel)

/-- What a wallet signs for a registration has its address, the key and the time in it: what it
signed for one key is not what it would sign for another. -/
theorem registration_signature_names_key {P : Primitives}
    (hP : ∀ t, '\n' ∉ (P.formatRFC3339 t).toList) {address address' : String} {key key' : List Nat}
    {t t' : Time} (haddress : isAddress (toLower (trimSpace address)))
    (haddress' : isAddress (toLower (trimSpace address'))) (hkey : Bytes key) (hkey' : Bytes key')
    (hsame : registrationMessage P address key t = registrationMessage P address' key' t') :
    toLower (trimSpace address) = toLower (trimSpace address') ∧ key = key' ∧
      P.formatRFC3339 t = P.formatRFC3339 t' := by
  rw [registrationMessage_eq, registrationMessage_eq] at hsame
  have hlines := lines_inj ?_ ?_ (List.cons_ne_nil _ _) (List.cons_ne_nil _ _) hsame
  · simp only [List.cons.injEq, and_true, true_and, String.append_right_inj] at hlines
    obtain ⟨hwallet, hhex, htime⟩ := hlines
    exact ⟨hwallet, encodeHex_inj hkey hkey' hhex, htime⟩
  · simp [hP t, not_newline_of_isAddress haddress, not_newline_encodeHex hkey]
  · simp [hP t', not_newline_of_isAddress haddress', not_newline_encodeHex hkey']

/-! ## What is signed is accepted -/

/-- The headers a client signs a request with, in the request. -/
def signRequest (E : Ed25519) (P : Primitives) (priv : List Nat) (account method requestURI : String)
    (body : List Nat) (now : Time) : HTTPRequest :=
  let t := formatInt now.toUnix
  let sig := E.sign priv ((utf8 (signingString P method requestURI t body)).map UInt8.toNat)
  { method := method
    requestURI := requestURI
    account := account
    authKey := encodeHex (Ed25519.publicOf priv)
    authTime := t
    authSignature := encodeHex sig
    body := some body }

/-- The keys and signatures of Ed25519 as they are. -/
structure Sized (E : Ed25519) (priv : List Nat) : Prop where
  publicKey : Bytes (Ed25519.publicOf priv) ∧ (Ed25519.publicOf priv).length = publicKeySize
  signature : ∀ msg, Bytes (E.sign priv msg) ∧ (E.sign priv msg).length = signatureSize

theorem trimSpace_formatInt (v : Int64) : trimSpace (formatInt v) = formatInt v := by
  refine trimSpace_eq_self fun c hc => ?_
  rw [Fixed.toList_formatInt] at hc
  rcases List.mem_append.mp hc with hsign | hdigit
  · split at hsign
    · rw [List.mem_singleton.mp hsign]
      decide
    · cases hsign
  · exact not_space_of_digit (Nat.isDigit_of_mem_toDigits (by decide) (by decide) hdigit)

theorem formatInt_ne_empty (v : Int64) : formatInt v ≠ "" := by
  intro hempty
  have hlist := congrArg String.toList hempty
  rw [Fixed.toList_formatInt] at hlist
  simp [Nat.toDigits_ne_nil] at hlist

/-- A request whose headers can be read passes when its key is registered, its time is close and its
signature fits. -/
theorem HTTPRequest.verify_eq_ok_iff {P : Primitives} {r : HTTPRequest}
    {registered : List (List Nat)} {now : Time} {pub sig body : List Nat} {ts : Int64}
    (hne : trimSpace r.authKey ≠ "" ∧ trimSpace r.authTime ≠ "" ∧ trimSpace r.authSignature ≠ "")
    (hpub : decodePrefixed (trimSpace r.authKey) = some pub) (hpubSize : pub.length = publicKeySize)
    (hts : parseInt (trimSpace r.authTime) = .ok ts)
    (hsig : decodePrefixed (trimSpace r.authSignature) = some sig)
    (hsigSize : sig.length = signatureSize) (hbody : r.body = some body) :
    r.verify P registered now = .ok () ↔ pub ∈ registered ∧
      ¬ tooFar (now.sub (Time.unix ts)) authSkew ∧
        P.verify pub (signingString P r.method r.requestURI (trimSpace r.authTime)
          (body.take (maxBody + 1))) sig := by
  obtain ⟨hkeyText, htimeText, hsigText⟩ := hne
  have htime : (parseInt (trimSpace r.authTime)).mapError
      (fun _ => unauthenticated "bad X-Auth-Time") = .ok ts := by
    rw [hts]
    rfl
  simp only [HTTPRequest.verify, htime, hpub, hsig, hbody, bind_eq_ok, revertIf_eq_ok,
    orRevert_eq_ok, Option.map_some, Option.some.injEq, Except.ok.injEq, hkeyText, htimeText,
    hsigText, or_self, not_false_eq_true, exists_const, true_and, exists_eq_left', not_not,
    hpubSize, hsigSize, ne_eq]

/-- A request whose headers are written as a client writes them. -/
theorem HTTPRequest.verify_written_iff {P : Primitives} {r : HTTPRequest}
    {registered : List (List Nat)} {now : Time} {pub sig body : List Nat} {ts : Int64}
    (hkey : r.authKey = encodeHex pub) (hpub : Bytes pub ∧ pub.length = publicKeySize)
    (htime : r.authTime = formatInt ts) (hsignature : r.authSignature = encodeHex sig)
    (hsig : Bytes sig ∧ sig.length = signatureSize) (hbody : r.body = some body)
    (hshort : body.length ≤ maxBody + 1) :
    r.verify P registered now = .ok () ↔ pub ∈ registered ∧
      ¬ tooFar (now.sub (Time.unix ts)) authSkew ∧
        P.verify pub (signingString P r.method r.requestURI (formatInt ts) body) sig := by
  obtain ⟨hpubBytes, hpubSize⟩ := hpub
  obtain ⟨hsigBytes, hsigSize⟩ := hsig
  have hkeyText : trimSpace r.authKey = encodeHex pub := by rw [hkey, trimSpace_encodeHex hpubBytes]
  have htimeText : trimSpace r.authTime = formatInt ts := by rw [htime, trimSpace_formatInt]
  have hsigText : trimSpace r.authSignature = encodeHex sig := by
    rw [hsignature, trimSpace_encodeHex hsigBytes]
  have hne : trimSpace r.authKey ≠ "" ∧ trimSpace r.authTime ≠ "" ∧
      trimSpace r.authSignature ≠ "" := by
    rw [hkeyText, htimeText, hsigText]
    refine ⟨encodeHex_ne_empty ?_, formatInt_ne_empty _, encodeHex_ne_empty ?_⟩
    · exact List.ne_nil_of_length_pos (hpubSize ▸ by decide)
    · exact List.ne_nil_of_length_pos (hsigSize ▸ by decide)
  have hread : decodePrefixed (trimSpace r.authKey) = some pub := by
    rw [hkeyText, decodePrefixed_encodeHex hpubBytes]
  have hreadTime : parseInt (trimSpace r.authTime) = .ok ts := by
    rw [htimeText, Fixed.parseInt_formatInt]
  have hreadSig : decodePrefixed (trimSpace r.authSignature) = some sig := by
    rw [hsigText, decodePrefixed_encodeHex hsigBytes]
  rw [r.verify_eq_ok_iff hne hread hpubSize hreadTime hreadSig hsigSize hbody, htimeText,
    List.take_of_length_le hshort]

/-- A request that is signed passes exactly when its key is registered and the clocks are close. -/
theorem signed_request_passes {E : Ed25519} {P : Primitives} (hE : E.Lawful)
    (hP : ∀ pub msg sig, P.verify pub msg sig = E.verify pub ((utf8 msg).map UInt8.toNat) sig)
    {seed : Ed25519.Seed} (hsized : Sized E (E.newKeyFromSeed seed))
    {account method requestURI : String} {body : List Nat} (hbody : body.length ≤ maxBody + 1)
    {registered : List (List Nat)} {signedAt now : Time} :
    (signRequest E P (E.newKeyFromSeed seed) account method requestURI body signedAt).verify P
        registered now = .ok () ↔
      Ed25519.publicOf (E.newKeyFromSeed seed) ∈ registered ∧
        ¬ tooFar (now.sub (Time.unix signedAt.toUnix)) authSkew := by
  have hverify := hE.verify_sign seed ((utf8 (signingString P method requestURI
    (formatInt signedAt.toUnix) body)).map UInt8.toNat)
  rw [HTTPRequest.verify_written_iff rfl hsized.publicKey rfl rfl (hsized.signature _) rfl hbody, hP]
  exact and_congr_right fun _ => and_iff_left hverify

section Wallet

variable (C : Secp256k1) (keccak : Hasher) (P : Primitives)

/-- The address of a key pair, as the platform writes it. -/
def ownWallet (priv : List UInt8) : String :=
  "0x" ++ encodeHex ((Chain.addressOf keccak (C.publicKey priv)).map UInt8.toNat)

/-- What a wallet signs to register a key. -/
def ownMessage (priv : List UInt8) (key : List Nat) (issued : Time) : List UInt8 :=
  utf8 (registrationMessage P (ownWallet C keccak priv) key issued)

/-- A registration its wallet signed. -/
def ownRegistration (priv : List UInt8) (key : List Nat) (issuedAt : String) (issued : Time) :
    RegisterAuthKey where
  address := ownWallet C keccak priv
  publicKey := "0x" ++ encodeHex key
  issuedAt := issuedAt
  signature := "0x" ++ encodeHex
    ((Chain.signPersonal C keccak priv (ownMessage C keccak P priv key issued)).map UInt8.toNat)

/-- The platform recovers addresses with the same curve and hash. -/
def Recovers : Prop := ∀ msg sig, P.recoverPersonal msg sig =
  (Chain.recoverPersonal C keccak (utf8 msg) (sig.map UInt8.ofNat)).toOption.map
    (List.map UInt8.toNat)

variable {C keccak P} {priv : List UInt8} {key : List Nat} {issuedAt : String} {issued now : Time}

theorem bytes_map_toNat (l : List UInt8) : Bytes (l.map UInt8.toNat) := by
  intro b hb
  obtain ⟨x, -, rfl⟩ := List.mem_map.mp hb
  exact x.toNat_lt

theorem trimSpace_0x (h : Bytes bytes) : trimSpace ("0x" ++ encodeHex bytes) = "0x" ++ encodeHex bytes := by
  refine trimSpace_eq_self fun c hc => ?_
  rw [String.toList_append] at hc
  rcases List.mem_append.mp hc with hprefix | hdigit
  · have hpair : c = '0' ∨ c = 'x' := by simpa using hprefix
    rcases hpair with rfl | rfl
    · decide
    · decide
  · exact (mem_encodeHex h hdigit).2.1

theorem folded_ownWallet : toLower (trimSpace (ownWallet C keccak priv)) = ownWallet C keccak priv := by
  have hbytes := bytes_map_toNat (Chain.addressOf keccak (C.publicKey priv))
  have hprefix : "0x".toList.map Char.toLower = "0x".toList := by decide
  rw [ownWallet, trimSpace_0x hbytes]
  apply String.toList_inj.mp
  rw [toLower, String.toList_ofList, String.toList_append, List.map_append, hprefix]
  exact congrArg _ ((List.map_congr_left fun _ hc => (mem_encodeHex hbytes hc).1).trans
    (List.map_id _))

theorem isAddress_ownWallet : isAddress (ownWallet C keccak priv) := by
  have hbytes := bytes_map_toNat (Chain.addressOf keccak (C.publicKey priv))
  have hlist : (ownWallet C keccak priv).toList = '0' :: 'x' ::
      (encodeHex ((Chain.addressOf keccak (C.publicKey priv)).map UInt8.toNat)).toList := by
    simp [ownWallet]
  have hsize : (Chain.addressOf keccak (C.publicKey priv)).length = 20 := by
    simp [Chain.addressOf, (keccak _).length_eq]
  have hlength : byteLength (encodeHex
      ((Chain.addressOf keccak (C.publicKey priv)).map UInt8.toNat)).toList = 40 := by
    rw [byteLength_encodeHex hbytes, List.length_map, hsize]
  unfold isAddress
  rw [hlist]
  exact decide_eq_true ⟨hlength, by rw [decodeHex_encodeHex hbytes]; rfl⟩

/-- A registration whose fields can be read passes when it is recent and its signer is its wallet. -/
theorem RegisterAuthKey.check_eq_ok_iff {r : RegisterAuthKey} {address : String} {sig : List Nat}
    (haddress : toLower (trimSpace r.address) = address) (hform : isAddress address)
    (hkey : decodePrefixed (trimSpace r.publicKey) = some key) (hsize : key.length = publicKeySize)
    (hissued : P.parseRFC3339 (trimSpace r.issuedAt) = some issued)
    (hsig : decodePrefixed (trimSpace r.signature) = some sig) (hsigSize : sig.length = 65) :
    r.check P now = .ok (address, key) ↔ ¬ tooFar (now.sub issued) registrationWindow ∧
      (P.recoverPersonal (registrationMessage P address key issued) sig).map
        (fun bytes => "0x" ++ encodeHex bytes) = some address := by
  simp only [RegisterAuthKey.check, haddress, hform, hkey, hsize, hissued, hsig, hsigSize,
    bind_eq_ok, revertIf_eq_ok, orRevert_eq_ok, Option.some.injEq, exists_eq_left', exists_const,
    true_and, not_not, ne_eq, not_true_eq_false, not_false_eq_true]
  exact ⟨fun ⟨hrecent, hsigner, _⟩ => ⟨hrecent, hsigner⟩,
    fun ⟨hrecent, hsigner⟩ => ⟨hrecent, hsigner, rfl⟩⟩

/-- The signer is the wallet exactly when its own address is recovered. -/
theorem signer_eq_iff (hP : Recovers C keccak P) (sig : List UInt8) (msg : String) :
    (P.recoverPersonal msg (sig.map UInt8.toNat)).map (fun bytes => "0x" ++ encodeHex bytes) =
        some (ownWallet C keccak priv) ↔
      Chain.recoverPersonal C keccak (utf8 msg) sig =
        .ok (Chain.addressOf keccak (C.publicKey priv)) := by
  have hback : (sig.map UInt8.toNat).map UInt8.ofNat = sig := by simp [Function.comp_def]
  rw [hP, hback]
  cases hrecover : Chain.recoverPersonal C keccak (utf8 msg) sig with
  | error e => simp [Except.toOption]
  | ok pub =>
    simp only [Except.toOption, Option.map_some, Option.some.injEq, ownWallet,
      String.append_right_inj, Except.ok.injEq]
    refine ⟨fun h => ?_, fun h => by rw [h]⟩
    have hbytes := encodeHex_inj (bytes_map_toNat _) (bytes_map_toNat _) h
    exact (List.map_inj_right fun _ _ => UInt8.toNat_inj.mp).mp hbytes

/-- A registration that its wallet signed passes exactly when it is recent and the recovery byte of
the signature is one of the first two. -/
theorem own_registration_passes (hC : C.Lawful) (hP : Recovers C keccak P) (hkey : Bytes key)
    (hsize : key.length = publicKeySize) (hissued : P.parseRFC3339 (trimSpace issuedAt) = some issued) :
    (ownRegistration C keccak P priv key issuedAt issued).check P now =
        .ok (ownWallet C keccak priv, key) ↔
      ¬ tooFar (now.sub issued) registrationWindow ∧
        (C.signCompact priv (Chain.personalHash keccak
          (ownMessage C keccak P priv key issued))).headD 0 < 29 := by
  generalize hsig : Chain.signPersonal C keccak priv (ownMessage C keccak P priv key issued) = sig
  have hsigSize : (sig.map UInt8.toNat).length = 65 := by
    rw [← hsig, List.length_map, Chain.length_signPersonal hC]
  generalize hr : ownRegistration C keccak P priv key issuedAt issued = r
  have haddress : toLower (trimSpace r.address) = ownWallet C keccak priv := by
    rw [← hr, ownRegistration]
    exact folded_ownWallet
  have hread : decodePrefixed (trimSpace r.publicKey) = some key := by
    rw [← hr, ownRegistration, trimSpace_0x hkey, decodePrefixed_0x hkey]
  have htime : P.parseRFC3339 (trimSpace r.issuedAt) = some issued := by
    rw [← hr, ownRegistration, hissued]
  have hreadSig : decodePrefixed (trimSpace r.signature) = some (sig.map UInt8.toNat) := by
    rw [← hr, ownRegistration, hsig, trimSpace_0x (bytes_map_toNat sig),
      decodePrefixed_0x (bytes_map_toNat sig)]
  have hown : Chain.recoverPersonal C keccak (ownMessage C keccak P priv key issued) sig =
      .ok (Chain.addressOf keccak (C.publicKey priv)) ↔ _ :=
    hsig ▸ Chain.recovers_own_address hC priv (ownMessage C keccak P priv key issued)
  rw [r.check_eq_ok_iff haddress isAddress_ownWallet hread hsize htime hreadSig hsigSize,
    signer_eq_iff hP, ← hown, ownMessage]

end Wallet

/-! The wallet of the private key one registers a key, and the key signs a request. -/

def ownerPoint : List UInt8 :=
  [121, 190, 102, 126, 249, 220, 187, 172, 85, 160, 98, 149, 206, 135, 11, 7, 2, 155, 252, 219, 45, 206,
    40, 217, 89, 242, 129, 91, 22, 248, 23, 152, 72, 58, 218, 119, 38, 163, 196, 101, 93, 164, 251, 252,
    14, 17, 8, 168, 253, 23, 180, 72, 166, 133, 84, 25, 156, 71, 208, 143, 251, 16, 212, 184]

def ownerHash : Chain.Bytes32 where
  bytes := [192, 166, 196, 36, 172, 113, 87, 174, 64, 131, 152, 223, 126, 95, 69, 82, 9, 26, 105, 18, 93,
    93, 252, 183, 184, 194, 101, 144, 41, 57, 91, 223]
  length_eq := rfl

def registrationHash : Chain.Bytes32 where
  bytes := [88, 56, 191, 104, 54, 46, 47, 158, 98, 204, 226, 242, 175, 219, 25, 172, 37, 94, 20, 22, 89,
    80, 123, 179, 122, 61, 93, 6, 144, 119, 181, 91]
  length_eq := rfl

def registrationSignature : List UInt8 :=
  [28, 143, 50, 252, 42, 79, 230, 88, 0, 25, 103, 167, 116, 176, 22, 212, 6, 62, 103, 34, 169, 201, 101,
    170, 53, 213, 211, 122, 78, 39, 7, 84, 17, 108, 241, 192, 61, 2, 26, 100, 154, 131, 23, 36, 190,
    119, 104, 167, 96, 40, 166, 15, 191, 97, 240, 74, 211, 168, 240, 223, 200, 28, 50, 43, 31]

/-- The hashes of the public key and of the message here. -/
def ownerHasher (input : List UInt8) : Chain.Bytes32 :=
  if input.length = 64 then ownerHash else registrationHash

/-- The curve at the key and the hash here. -/
def ownerCurve : Secp256k1 where
  publicKey _ := 4 :: ownerPoint
  signCompact _ h := if h = registrationHash then registrationSignature else 27 :: ownerPoint
  recoverCompact _ _ := .ok (4 :: ownerPoint)

theorem ownerCurve_lawful : ownerCurve.Lawful where
  compact _ h := by
    by_cases hh : h = registrationHash
    · exact ⟨1, by decide, registrationSignature.drop 1, rfl, (if_pos hh).trans rfl⟩
    · exact ⟨0, by decide, ownerPoint, rfl, (if_neg hh).trans rfl⟩
  recover_sign _ _ := rfl

def ownerKey : List UInt8 := List.replicate 31 0 ++ [1]

def requestSeed : Ed25519.Seed where
  val := [157, 97, 177, 157, 239, 253, 90, 96, 186, 132, 74, 244, 146, 236, 44, 196, 68, 73, 197, 105,
    123, 50, 105, 25, 112, 59, 172, 3, 28, 174, 127, 96]
  property := rfl

def requestKey : List Nat :=
  [215, 90, 152, 1, 130, 177, 10, 183, 213, 75, 254, 211, 201, 100, 7, 58, 14, 225, 114, 243, 218, 166,
    35, 37, 175, 2, 26, 104, 247, 7, 81, 26]

def requestSignature : List Nat :=
  [88, 154, 23, 14, 180, 105, 200, 252, 30, 235, 44, 195, 25, 161, 196, 210, 29, 93, 194, 41, 95, 57, 6,
    186, 74, 122, 17, 214, 146, 52, 0, 223, 136, 54, 185, 139, 47, 26, 87, 120, 148, 164, 25, 235, 224,
    229, 97, 224, 144, 85, 150, 63, 177, 22, 201, 34, 71, 114, 195, 225, 145, 162, 197, 9]

def emptySum : List Nat :=
  [227, 176, 196, 66, 152, 252, 28, 20, 154, 251, 244, 200, 153, 111, 185, 36, 39, 174, 65, 228, 100,
    155, 147, 76, 164, 149, 153, 27, 120, 82, 184, 85]

/-- The pair and the signature here. -/
def requestPair : Ed25519 where
  newKeyFromSeed seed := seed ++ requestKey
  sign _ _ := requestSignature
  verify _ _ sig := sig = requestSignature

theorem requestPair_lawful : requestPair.Lawful := ⟨fun _ _ => by simp [requestPair]⟩

theorem bytes_requestKey : Bytes requestKey := by
  unfold Bytes
  decide

theorem bytes_requestSignature : Bytes requestSignature := by
  unfold Bytes
  decide

theorem bytes_emptySum : Bytes emptySum := by
  unfold Bytes
  decide

theorem sized_requestPair : Sized requestPair (requestPair.newKeyFromSeed requestSeed) where
  publicKey := ⟨show Bytes requestKey from bytes_requestKey, rfl⟩
  signature _ := ⟨bytes_requestSignature, rfl⟩

/-- The first second of the year 2026. -/
def newYear : Time := Time.unix 1767225600

def newYearText : String := "2026-01-01T00:00:00Z"

def ownerPrimitives : Primitives where
  sum256 _ := emptySum
  verify pub msg sig := requestPair.verify pub ((utf8 msg).map UInt8.toNat) sig
  recoverPersonal msg sig :=
    (Chain.recoverPersonal ownerCurve ownerHasher (utf8 msg) (sig.map UInt8.ofNat)).toOption.map
      (List.map UInt8.toNat)
  parseRFC3339 s := if s = newYearText then some newYear else none
  formatRFC3339 _ := newYearText

theorem own_registration_passes_newYear :
    (ownRegistration ownerCurve ownerHasher ownerPrimitives ownerKey requestKey newYearText
        newYear).check ownerPrimitives newYear =
        .ok (ownWallet ownerCurve ownerHasher ownerKey, requestKey) ↔
      ¬ tooFar (newYear.sub newYear) registrationWindow ∧
        (ownerCurve.signCompact ownerKey (Chain.personalHash ownerHasher
          (ownMessage ownerCurve ownerHasher ownerPrimitives ownerKey requestKey
            newYear))).headD 0 < 29 := by
  have htrim : trimSpace newYearText = newYearText := by decide +kernel
  have hread : ownerPrimitives.parseRFC3339 newYearText = some newYear := by simp [ownerPrimitives]
  exact own_registration_passes ownerCurve_lawful (fun _ _ => rfl) bytes_requestKey rfl
    (htrim.symm ▸ hread)

theorem signed_request_passes_state :
    (signRequest requestPair ownerPrimitives (requestPair.newKeyFromSeed requestSeed) "" "GET"
        "/v1/state" [] newYear).verify ownerPrimitives [requestKey] newYear = .ok () ↔
      Ed25519.publicOf (requestPair.newKeyFromSeed requestSeed) ∈ [requestKey] ∧
        ¬ tooFar (newYear.sub (Time.unix newYear.toUnix)) authSkew :=
  signed_request_passes requestPair_lawful (fun _ _ _ => rfl) sized_requestPair (by decide)

/-- Two requests whose headers differ in what is around the time. -/
def stateRequest : HTTPRequest := ⟨"GET", "/v1/state", "", "", "0", "", none⟩
def spacedRequest : HTTPRequest := { stateRequest with authTime := " 0 " }

theorem request_signature_names_request_state :
    stateRequest.method = spacedRequest.method ∧ stateRequest.requestURI = spacedRequest.requestURI ∧
      trimSpace stateRequest.authTime = trimSpace spacedRequest.authTime ∧
      ownerPrimitives.sum256 [] = ownerPrimitives.sum256 [] := by
  have hline : stateRequest.OneLine := ⟨by decide +kernel, by decide +kernel⟩
  have hline' : spacedRequest.OneLine := hline
  have hts : parseInt (trimSpace stateRequest.authTime) = .ok 0 := by decide +kernel
  have hts' : parseInt (trimSpace spacedRequest.authTime) = .ok 0 := by decide +kernel
  have htime : trimSpace stateRequest.authTime = trimSpace spacedRequest.authTime := by
    decide +kernel
  exact request_signature_names_request (fun _ => bytes_emptySum) hline hline' hts hts'
    (by rw [htime]; simp only [spacedRequest])

/-- The wallet here, written with capital letters. -/
def capitalWallet : String := "0x7E5F4552091A69125D5DFCB7B8C2659029395BDF"
def smallWallet : String := "0x7e5f4552091a69125d5dfcb7b8c2659029395bdf"

theorem registration_signature_names_key_capitals :
    toLower (trimSpace capitalWallet) = toLower (trimSpace smallWallet) ∧ requestKey = requestKey ∧
      ownerPrimitives.formatRFC3339 newYear = ownerPrimitives.formatRFC3339 newYear := by
  have hwallets : toLower (trimSpace capitalWallet) = toLower (trimSpace smallWallet) := by
    decide +kernel
  have hform : isAddress (toLower (trimSpace smallWallet)) = true := by decide +kernel
  have htext : ∀ t, '\n' ∉ (ownerPrimitives.formatRFC3339 t).toList :=
    fun _ => show '\n' ∉ newYearText.toList by decide +kernel
  have hform' : isAddress (toLower (trimSpace capitalWallet)) = true := by rw [hwallets, hform]
  have hsame : registrationMessage ownerPrimitives capitalWallet requestKey newYear =
      registrationMessage ownerPrimitives smallWallet requestKey newYear := by
    rw [registrationMessage_eq, registrationMessage_eq, hwallets]
  exact registration_signature_names_key htext hform' hform bytes_requestKey bytes_requestKey hsame

end SuperAgent.Platform
