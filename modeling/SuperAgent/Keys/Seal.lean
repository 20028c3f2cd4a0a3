import SuperAgent.Chain.Address
import Mathlib.Data.List.Basic

/-!
# Sealed records

A small secret at rest is encrypted under one key and bound to the label of its
owner. A sealed record begins with a mark, and whatever does not is taken as
written before there was a key.
-/

namespace SuperAgent.Keys

open Chain (decodeHex)

/-- Authenticated encryption of a plaintext with a label beside it, as AES-256-GCM has it. -/
structure Aead where
  nonceSize : ℕ
  overhead : ℕ
  encrypt : (key nonce plaintext : List Nat) → (label : String) → List Nat
  decrypt : (key nonce ciphertext : List Nat) → (label : String) → Option (List Nat)

namespace Aead

def keySize : ℕ := 32

/-- What is decrypted is what was encrypted, and what decrypts was encrypted so. -/
structure Lawful (A : Aead) : Prop where
  nonceSize_pos : 0 < A.nonceSize
  length_encrypt : ∀ {key nonce : List Nat}, key.length = keySize → nonce.length = A.nonceSize →
    ∀ plaintext label, (A.encrypt key nonce plaintext label).length = plaintext.length + A.overhead
  decrypt_encrypt : ∀ {key nonce : List Nat}, key.length = keySize → nonce.length = A.nonceSize →
    ∀ plaintext label,
      A.decrypt key nonce (A.encrypt key nonce plaintext label) label = some plaintext
  encrypt_decrypt : ∀ {key nonce : List Nat}, key.length = keySize → nonce.length = A.nonceSize →
    ∀ {ciphertext plaintext : List Nat} {label : String},
      A.decrypt key nonce ciphertext label = some plaintext →
        A.encrypt key nonce plaintext label = ciphertext

/-- Encryption by a stream of bytes, with a tag after what it gives. -/
def streamed (nonceSize tagSize : ℕ) (stream : List Nat → List Nat → ℕ → Nat)
    (tag : List Nat → List Nat → List Nat → String → { t : List Nat // t.length = tagSize }) :
    Aead where
  nonceSize := nonceSize
  overhead := tagSize
  encrypt key nonce plaintext label :=
    let masked := plaintext.mapIdx fun i b => b ^^^ stream key nonce i
    masked ++ (tag key nonce masked label).val
  decrypt key nonce ciphertext label :=
    let size := ciphertext.length - tagSize
    let masked := ciphertext.take size
    if tagSize ≤ ciphertext.length ∧ ciphertext.drop size = (tag key nonce masked label).val then
      some (masked.mapIdx fun i b => b ^^^ stream key nonce i)
    else none

theorem streamed_lawful {nonceSize tagSize : ℕ} {stream : List Nat → List Nat → ℕ → Nat}
    {tag : List Nat → List Nat → List Nat → String → { t : List Nat // t.length = tagSize }}
    (hpos : 0 < nonceSize) : (streamed nonceSize tagSize stream tag).Lawful := by
  have htwice (key nonce data : List Nat) : (data.mapIdx fun i b => b ^^^ stream key nonce i).mapIdx
      (fun i b => b ^^^ stream key nonce i) = data := by
    refine List.ext_getElem (by simp) fun i _ _ => ?_
    simp [Nat.xor_assoc]
  constructor
  · exact hpos
  · intro key nonce _ _ plaintext label
    simp [streamed, (tag _ _ _ _).property]
  · intro key nonce _ _ plaintext label
    have hsize := (tag key nonce (plaintext.mapIdx fun i b => b ^^^ stream key nonce i) label).property
    simp [streamed, hsize, htwice]
  · intro key nonce _ _ ciphertext plaintext label h
    simp only [streamed, Option.ite_none_right_eq_some] at h
    obtain ⟨⟨-, htag⟩, hplain⟩ := h
    have hmasked := htwice key nonce (ciphertext.take (ciphertext.length - tagSize))
    simp only [streamed, ← Option.some.inj hplain, hmasked, ← htag, List.take_append_drop]

/-- The random bytes a record is sealed with. -/
abbrev Nonce (A : Aead) := { nonce : List Nat // nonce.length = A.nonceSize }

end Aead

/-- Encrypts and decrypts with one key. -/
structure Sealer (A : Aead) where
  key : List Nat
  size : key.length = Aead.keySize

/-- Why a record cannot be sealed or opened. -/
inductive SealError
  | badKey
  | notSealed
  | tooShort
  | tampered
  deriving DecidableEq

def SealError.text : SealError → String
  | .badKey => "seal: key must be 32 bytes of hex"
  | .notSealed => "seal: not a sealed record"
  | .tooShort => "seal: record too short"
  | .tampered => "seal: cannot open record: wrong key or tampered"

/-- The mark of a sealed record. -/
def magic : List Nat := [84, 65, 75, 49]

/-- Whether a record has the sealed format. -/
def isSealed (data : List Nat) : Bool := magic.length < data.length ∧ data.take magic.length = magic

namespace Sealer

variable {A : Aead}

/-- Takes the key as sixty-four hexadecimal digits. -/
def new (hexKey : String) : Except SealError (Sealer A) :=
  match decodeHex (Chain.trimHexPrefix (trimSpace hexKey).toList) with
  | none => .error .badKey
  | some key => if size : key.length = Aead.keySize then .ok ⟨key, size⟩ else .error .badKey

variable (s : Sealer A)

/-- A record of a secret, bound to a label. -/
def sealed (nonce : A.Nonce) (plaintext : List Nat) (label : String) : List Nat :=
  magic ++ nonce.val ++ A.encrypt s.key nonce plaintext label

/-- The secret of a record sealed under a label. -/
def «open» (data : List Nat) (label : String) : Except SealError (List Nat) :=
  if ¬ isSealed data then .error .notSealed
  else
    let data := data.drop magic.length
    if data.length < A.nonceSize + A.overhead then .error .tooShort
    else match A.decrypt s.key (data.take A.nonceSize) (data.drop A.nonceSize) label with
      | none => .error .tampered
      | some out => .ok out

variable {s} {nonce : A.Nonce} {plaintext data : List Nat} {label : String}

theorem isSealed_sealed (hA : A.Lawful) : isSealed (s.sealed nonce plaintext label) = true := by
  have hpos := hA.nonceSize_pos
  have hnonce := nonce.property
  have hlength : magic.length < (s.sealed nonce plaintext label).length := by
    simp only [sealed, List.length_append]
    omega
  have hmark : (s.sealed nonce plaintext label).take magic.length = magic := by
    rw [sealed, List.append_assoc, List.take_left']
    rfl
  exact decide_eq_true ⟨hlength, hmark⟩

theorem open_sealed (hA : A.Lawful) : s.open (s.sealed nonce plaintext label) label = .ok plaintext := by
  have hnonce := nonce.property
  have hdrop : (s.sealed nonce plaintext label).drop magic.length =
      nonce.val ++ A.encrypt s.key nonce plaintext label := by
    rw [sealed, List.append_assoc, List.drop_left']
    rfl
  have htake : (nonce.val ++ A.encrypt s.key nonce plaintext label).take A.nonceSize = nonce.val :=
    List.take_left' hnonce
  have hrest : (nonce.val ++ A.encrypt s.key nonce plaintext label).drop A.nonceSize =
      A.encrypt s.key nonce plaintext label :=
    List.drop_left' hnonce
  have hlong : ¬ (nonce.val ++ A.encrypt s.key nonce plaintext label).length <
      A.nonceSize + A.overhead := by
    rw [List.length_append, hA.length_encrypt s.size hnonce]
    omega
  simp only [«open», isSealed_sealed hA, not_true, if_false, hdrop, if_neg hlong, htake, hrest,
    hA.decrypt_encrypt s.size hnonce]

/-- A record that opens under a label is the secret sealed under that label. -/
theorem sealed_of_open (hA : A.Lawful) (h : s.open data label = .ok plaintext) :
    ∃ nonce : A.Nonce, data = s.sealed nonce plaintext label := by
  unfold «open» at h
  split at h
  · cases h
  · next hsealed =>
    dsimp only at h
    split at h
    · cases h
    · next hlong =>
      split at h
      · cases h
      · next out hout =>
        obtain rfl := Except.ok.inj h
        have hmark : data.take magic.length = magic :=
          (of_decide_eq_true (not_not.mp hsealed)).2
        have hsize : ((data.drop magic.length).take A.nonceSize).length = A.nonceSize := by
          rw [List.length_take]
          omega
        refine ⟨⟨_, hsize⟩, ?_⟩
        rw [sealed, hA.encrypt_decrypt s.size hsize hout, List.append_assoc, List.take_append_drop]
        nth_rewrite 1 [← List.take_append_drop magic.length data]
        rw [hmark]

end Sealer

end SuperAgent.Keys
