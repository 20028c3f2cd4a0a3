import SuperAgent.Chain.Tx
import SuperAgent.Eip712.Digest

/-!
# Messages signed by wallets

A wallet signs three kinds of things: a message as `personal_sign` frames it, a
typed-data document and a transaction. What is hashed says which kind it is and
what is in it. A signature of a message is made from a compact one, with the
recovery byte moved to the end, and read back to the address that made it.
-/

namespace SuperAgent.Chain

/-- What is used of secp256k1: compact signatures, and the public keys they are recovered to. -/
structure Secp256k1 where
  publicKey : List UInt8 → List UInt8
  signCompact : List UInt8 → Bytes32 → List UInt8
  recoverCompact : List UInt8 → Bytes32 → Except String (List UInt8)

/-- A compact signature is a recovery byte, of four at most, and two numbers. The key that made it
is recovered from it. -/
structure Secp256k1.Lawful (C : Secp256k1) : Prop where
  compact : ∀ priv h, ∃ recovery < 4, ∃ rs : List UInt8, rs.length = 64 ∧
    C.signCompact priv h = UInt8.ofNat (27 + recovery) :: rs
  recover_sign : ∀ priv h, C.recoverCompact (C.signCompact priv h) h = .ok (C.publicKey priv)

/-- What is hashed of a message. -/
def personalPreimage (message : List UInt8) : List UInt8 :=
  utf8 ("\x19Ethereum Signed Message:\n" ++ toString message.length) ++ message

def personalHash (keccak : Hasher) (message : List UInt8) : Bytes32 :=
  keccak (personalPreimage message)

/-- The last twenty bytes of the hash of a public key without its first byte. -/
def addressOf (keccak : Hasher) (pub : List UInt8) : List UInt8 := (keccak (pub.drop 1)).bytes.drop 12

/-- Why no address is recovered. -/
inductive RecoverError
  | size (n : ℕ)
  | recoveryByte
  | recover (why : String)
  deriving DecidableEq

def RecoverError.text : RecoverError → String
  | .size n => "chain: signature must be 65 bytes, got " ++ toString n
  | .recoveryByte => "chain: bad recovery byte"
  | .recover why => "chain: recover: " ++ why

variable (C : Secp256k1) (keccak : Hasher)

def signPersonal (priv message : List UInt8) : List UInt8 :=
  let compact := C.signCompact priv (personalHash keccak message)
  (compact.drop 1).take 64 ++ [compact.headD 0]

def recoverPersonal (message sig : List UInt8) : Except RecoverError (List UInt8) :=
  if sig.length ≠ 65 then .error (.size sig.length)
  else
    let v := sig.getD 64 0
    let v := if v < 27 then v + 27 else v
    if v ≠ 27 ∧ v ≠ 28 then .error .recoveryByte
    else
      match C.recoverCompact (v :: sig.take 64) (personalHash keccak message) with
      | .error why => .error (.recover why)
      | .ok pub => .ok (addressOf keccak pub)

/-! ## What is hashed says what it is -/

/-- What a wallet may be asked to sign. -/
inductive Signable
  | personal (message : List UInt8)
  | typed (separator msg : Bytes32)
  | transaction (t : Tx)

namespace Signable

def preimage : Signable → List UInt8
  | personal message => personalPreimage message
  | typed separator msg => [0x19, 0x01] ++ separator.bytes ++ msg.bytes
  | transaction t => t.preimage

/-- The same kind of thing, with the same in it. -/
def Same : Signable → Signable → Prop
  | personal m, personal n => m = n
  | typed s m, typed s' m' => s = s' ∧ m = m'
  | transaction t, transaction u => t.Same u
  | _, _ => False

/-- Its amounts are amounts, and it fits in memory. -/
def Proper : Signable → Prop
  | transaction t => t.NonNegative ∧ t.preimage.length < 2 ^ 64
  | _ => True

end Signable

variable {m n : List UInt8} {a b : Signable}

/-- A number is written with no more digits than a larger one. -/
theorem length_toDigits_mono {i j : ℕ} (h : i ≤ j) :
    (Nat.toDigits 10 i).length ≤ (Nat.toDigits 10 j).length := by
  rw [Nat.length_toDigits_le_iff (by decide) Nat.length_toDigits_pos]
  exact h.trans_lt ((Nat.length_toDigits_le_iff (by decide) Nat.length_toDigits_pos).mp le_rfl)

theorem length_utf8_toString (i : ℕ) : (utf8 (toString i)).length = (Nat.toDigits 10 i).length := by
  have hsize : ∀ c ∈ Nat.toDigits 10 i, (String.utf8EncodeChar c).length = 1 := by
    intro c hc
    have hdigit := Nat.isDigit_of_mem_toDigits (by decide) (by decide) hc
    have hbytes : byteLength [c] = 1 := byteLength_digits (by simpa using hdigit)
    simpa [byteLength] using hbytes
  rw [Nat.toString_eq_ofList_toDigits, utf8_ofList, List.length_flatMap, List.map_congr_left hsize]
  simp

/-- The whole is as long for one length of the message only. -/
theorem personalPreimage_inj (h : personalPreimage m = personalPreimage n) : m = n := by
  have hlength : ∀ i j : ℕ, i < j →
      (utf8 (toString i)).length + i < (utf8 (toString j)).length + j := by
    intro i j hij
    rw [length_utf8_toString, length_utf8_toString]
    have hdigits := length_toDigits_mono hij.le
    omega
  simp only [personalPreimage, utf8_append, List.append_assoc] at h
  have hrest := List.append_cancel_left h
  have hwhole := congrArg List.length hrest
  simp only [List.length_append] at hwhole
  have hsame : m.length = n.length := by
    rcases Nat.lt_trichotomy m.length n.length with hlt | heq | hgt
    · exact absurd hwhole (hlength _ _ hlt).ne
    · exact heq
    · exact absurd hwhole (hlength _ _ hgt).ne'
  rw [hsame] at hrest
  exact List.append_cancel_left hrest

theorem head_personalPreimage : ∃ rest, personalPreimage m = 0x19 :: 0x45 :: rest := by
  have hhead : (utf8 "\x19Ethereum Signed Message:\n").take 2 = [0x19, 0x45] := by decide +kernel
  refine ⟨(utf8 "\x19Ethereum Signed Message:\n").drop 2 ++ utf8 (toString m.length) ++ m, ?_⟩
  rw [personalPreimage, utf8_append]
  nth_rewrite 1 [← List.take_append_drop 2 (utf8 "\x19Ethereum Signed Message:\n"), hhead]
  rfl

/-- Whatever is signed, its kind and what is in it can be told from what is hashed. -/
theorem signables_apart (ha : a.Proper) (hb : b.Proper) (h : a.preimage = b.preimage) :
    a.Same b := by
  cases a with
  | personal m =>
    obtain ⟨rest, hm⟩ := head_personalPreimage (m := m)
    cases b with
    | personal n => exact personalPreimage_inj h
    | typed s' m' =>
      rw [Signable.preimage, hm] at h
      simp [Signable.preimage] at h
    | transaction u =>
      rw [Signable.preimage, hm] at h
      simp [Signable.preimage, Tx.preimage] at h
  | typed s m =>
    cases b with
    | personal n =>
      obtain ⟨rest, hn⟩ := head_personalPreimage (m := n)
      rw [Signable.preimage, Signable.preimage, hn] at h
      simp at h
    | typed s' m' =>
      have hwords : s.bytes ++ m.bytes = s'.bytes ++ m'.bytes := by
        simpa [Signable.preimage] using h
      obtain ⟨hs, hm⟩ := List.append_inj hwords (by rw [s.length_eq, s'.length_eq])
      exact ⟨Bytes32.ext hs, Bytes32.ext hm⟩
    | transaction u => simp [Signable.preimage, Tx.preimage] at h
  | transaction t =>
    cases b with
    | personal n =>
      obtain ⟨rest, hn⟩ := head_personalPreimage (m := n)
      rw [Signable.preimage, Signable.preimage, hn, Tx.preimage] at h
      simp at h
    | typed s' m' => simp [Signable.preimage, Tx.preimage] at h
    | transaction u => exact same_of_preimage ha.1 hb.1 ha.2 h

/-- An amount of zero is written as none. -/
theorem signables_apart_zero :
    (Signable.transaction ⟨1, 0, none, none, 21000, none, none, []⟩).Same
      (.transaction ⟨1, 0, some 0, none, 21000, none, some 0, []⟩) :=
  signables_apart ⟨⟨le_rfl, le_rfl, le_rfl⟩, by decide +kernel⟩
    ⟨⟨le_rfl, le_rfl, le_rfl⟩, by decide +kernel⟩ (by decide +kernel)

/-! ## A signature is read back -/

/-- The recovery byte of a signature, with or without its offset. -/
def recoveryByte (v : UInt8) : UInt8 := if v < 27 then v + 27 else v

variable {C keccak} {message rs pub : List UInt8} {v : UInt8} {r : Except RecoverError (List UInt8)}

theorem recoverPersonal_eq (hrs : rs.length = 64) :
    recoverPersonal C keccak message (rs ++ [v]) =
      if recoveryByte v ≠ 27 ∧ recoveryByte v ≠ 28 then .error .recoveryByte
      else match C.recoverCompact (recoveryByte v :: rs) (personalHash keccak message) with
        | .error why => .error (.recover why)
        | .ok pub => .ok (addressOf keccak pub) := by
  have hsize : (rs ++ [v]).length = 65 := by simp [hrs]
  have hlast : (rs ++ [v]).getD 64 0 = v := by simp [← hrs]
  have htake : (rs ++ [v]).take 64 = rs := by simp [← hrs]
  rw [recoverPersonal, if_neg (not_not.mpr hsize), hlast, htake]
  rfl

theorem length_signPersonal (hC : C.Lawful) (priv message : List UInt8) :
    (signPersonal C keccak priv message).length = 65 := by
  obtain ⟨recovery, -, rs, hrs, hcompact⟩ := hC.compact priv (personalHash keccak message)
  simp [signPersonal, hcompact, hrs]

/-- A message is recovered to the key that signed it exactly when its recovery byte is one of the
first two. -/
theorem recovers_own_address (hC : C.Lawful) (priv message : List UInt8) :
    recoverPersonal C keccak message (signPersonal C keccak priv message) =
        .ok (addressOf keccak (C.publicKey priv)) ↔
      (C.signCompact priv (personalHash keccak message)).headD 0 < 29 := by
  have hback := hC.recover_sign priv (personalHash keccak message)
  obtain ⟨recovery, hsmall, rs, hrs, hcompact⟩ := hC.compact priv (personalHash keccak message)
  have hsig : signPersonal C keccak priv message = rs ++ [UInt8.ofNat (27 + recovery)] := by
    simp [signPersonal, hcompact, ← hrs]
  have hbytes : ∀ n < 4, recoveryByte (UInt8.ofNat (27 + n)) = UInt8.ofNat (27 + n) ∧
      ((UInt8.ofNat (27 + n) ≠ 27 ∧ UInt8.ofNat (27 + n) ≠ 28) ↔ ¬ UInt8.ofNat (27 + n) < 29) := by
    decide
  obtain ⟨hbyte, hfirst⟩ := hbytes recovery hsmall
  rw [hcompact] at hback
  rw [hsig, hcompact, recoverPersonal_eq hrs, hbyte, List.headD_cons]
  by_cases h : UInt8.ofNat (27 + recovery) < 29
  · rw [if_neg (fun hbad => hfirst.mp hbad h), hback]
    exact iff_of_true rfl h
  · rw [if_pos (hfirst.mpr h)]
    exact iff_of_false nofun h

end SuperAgent.Chain
