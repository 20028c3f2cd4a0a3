import SuperAgent.Core.Text

/-!
# Addresses as text

An address of the chain read from hexadecimal text. The prefix is optional and
the case of the digits does not matter, so an address has many texts.
-/

namespace SuperAgent.Chain

/-- Twenty bytes. -/
abbrev Address := BitVec 160

/-- The value of a hexadecimal digit. -/
def fromHexChar (c : Char) : Option Nat :=
  if '0' ≤ c ∧ c ≤ '9' then some (c.toNat - 48)
  else if 'a' ≤ c ∧ c ≤ 'f' then some (c.toNat - 97 + 10)
  else if 'A' ≤ c ∧ c ≤ 'F' then some (c.toNat - 65 + 10)
  else none

/-- The bytes of hexadecimal text, two digits each. -/
def decodeHex : List Char → Option (List Nat)
  | [] => some []
  | [_] => none
  | a :: b :: cs => do
    let hi ← fromHexChar a
    let lo ← fromHexChar b
    let rest ← decodeHex cs
    return (hi * 16 + lo) :: rest

/-- The text without a leading `0x`. -/
def trimHexPrefix : List Char → List Char
  | '0' :: 'x' :: cs => cs
  | cs => cs

/-- What hexadecimal text is made of. -/
theorem fromHexChar_of_decodeHex {cs : List Char} {bytes : List Nat} (h : decodeHex cs = some bytes) :
    ∀ c ∈ cs, fromHexChar c ≠ none := by
  induction cs using decodeHex.induct generalizing bytes with
  | case1 => exact nofun
  | case2 => cases h
  | case3 a b cs ih =>
    rw [decodeHex] at h
    obtain ⟨hi, ha, h⟩ := Option.bind_eq_some_iff.mp h
    obtain ⟨lo, hb, h⟩ := Option.bind_eq_some_iff.mp h
    obtain ⟨rest, hrest, -⟩ := Option.bind_eq_some_iff.mp h
    intro c hc
    rcases List.mem_cons.mp hc with rfl | hc
    · exact ha ▸ nofun
    · rcases List.mem_cons.mp hc with rfl | hc
      · exact hb ▸ nofun
      · exact ih hrest c hc

theorem toNat_lt_of_fromHexChar {c : Char} (h : fromHexChar c ≠ none) : c.toNat < 103 := by
  refine Nat.lt_of_not_le fun hbig => ?_
  have hle : ∀ d : Char, d.toNat < 103 → ¬ c ≤ d := fun d hd hcd =>
    absurd (Nat.le_trans hbig (UInt32.le_iff_toNat_le.mp (Char.le_def.mp hcd))) (Nat.not_le.mpr hd)
  apply h
  rw [fromHexChar, if_neg fun hc => hle '9' (by decide) hc.2,
    if_neg fun hc => hle 'f' (by decide) hc.2, if_neg fun hc => hle 'F' (by decide) hc.2]

/-- A hexadecimal digit in small letters stays as it is, and is neither a space nor a slash. -/
theorem toLower_of_fromHexChar {c : Char} (h : fromHexChar c ≠ none) :
    c.toLower.toLower = c.toLower ∧ isSpace c.toLower = false ∧ c.toLower ≠ '/' := by
  have hsmall : ∀ n < 103, fromHexChar (Char.ofNat n) ≠ none →
      (Char.ofNat n).toLower.toLower = (Char.ofNat n).toLower ∧
        isSpace (Char.ofNat n).toLower = false ∧ (Char.ofNat n).toLower ≠ '/' := by decide
  have hdigit := hsmall c.toNat (toNat_lt_of_fromHexChar h)
  rw [Char.ofNat_toNat] at hdigit
  exact hdigit h

/-- Read an address. -/
def parseAddress (s : String) : Except String Address :=
  match decodeHex (trimHexPrefix (trimSpace s).toList) with
  | some bytes =>
    if bytes.length = 20 then .ok (BitVec.ofNat 160 (bytes.foldl (fun n b => 256 * n + b) 0))
    else .error ("chain: bad address " ++ s.quote)
  | none => .error ("chain: bad address " ++ s.quote)

/-- Whether a text is an address. -/
def isAddress (s : String) : Bool := (parseAddress s).toOption.isSome

example : isAddress "0x00000000000000000000000000000000000000aB" = true := by decide
example : isAddress "platform" = false := by decide

end SuperAgent.Chain
