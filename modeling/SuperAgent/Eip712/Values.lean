import SuperAgent.Chain.Abi

/-!
# Values of typed data

A typed-data document carries its values as JSON. Numbers are kept as the text
they were written in, and an integer or bytes may be given as one of several
texts.
-/

namespace SuperAgent.Eip712

open Chain

/-- A decoded JSON value. Each name of an object is there once. -/
inductive Json
  | null
  | bool (b : Bool)
  | number (text : String)
  | string (s : String)
  | array (elements : List Json)
  | object (members : List (String × Json))

/-- The name the runtime has for a value's type. -/
def Json.kind : Json → String
  | .null => "<nil>"
  | .bool _ => "bool"
  | .number _ => "json.Number"
  | .string _ => "string"
  | .array _ => "[]interface \x7b\x7d"
  | .object _ => "map[string]interface \x7b\x7d"

/-- Why a document has no digest. -/
inductive Fault
  | unknownType (name : String)
  | missing (typeName name : String)
  | field (typeName name : String) (e : Fault)
  | arrayType (typ : String)
  | expectedObject (typ : String)
  | expectedString
  | expectedBool
  | addressLength (n : ℕ)
  | invalidType (typ : String)
  | bytesLength (typ : String) (n : Int64) (got : ℕ)
  | outOfRange (typ : String)
  | unsupported (typ : String)
  | badNumber (text : String)
  | badHexNumber (text : String)
  | expectedNumber (kind : String)
  | expectedHex (kind : String)
  | badHex (b : UInt8)
  | domain (e : Fault)
  | message (e : Fault)

/-- A byte as the runtime names a character. -/
def runeText (b : UInt8) : String :=
  let digit (n : ℕ) := (Nat.digitChar n).toUpper
  let code := "U+00" ++ String.ofList [digit (b.toNat / 16), digit (b.toNat % 16)]
  if (0x20 ≤ b ∧ b ≤ 0x7e) ∨ (0xa1 ≤ b ∧ b ≠ 0xad) then
    code ++ " '" ++ String.ofList [Char.ofNat b.toNat] ++ "'"
  else code

/-- What a fault says. -/
def Fault.text : Fault → String
  | .unknownType name => "eip712: unknown type " ++ name.quote
  | .missing typeName name => "eip712: " ++ typeName ++ "." ++ name ++ " is missing"
  | .field typeName name e => "eip712: " ++ typeName ++ "." ++ name ++ ": " ++ e.text
  | .arrayType typ => "array type " ++ typ.quote ++ " is not supported"
  | .expectedObject typ => "expected object for " ++ typ
  | .expectedString => "expected string"
  | .expectedBool => "expected bool"
  | .addressLength n => "address must be 20 bytes, got " ++ toString n
  | .invalidType typ => "invalid type " ++ typ
  | .bytesLength typ n got =>
    typ ++ " must be " ++ toString n ++ " bytes, got " ++ toString got
  | .outOfRange typ => "value out of range for " ++ typ
  | .unsupported typ => "unsupported type " ++ typ.quote
  | .badNumber text => "bad number " ++ text.quote
  | .badHexNumber text => "bad hex number " ++ text.quote
  | .expectedNumber kind => "expected number, got " ++ kind
  | .expectedHex kind => "expected hex string, got " ++ kind
  | .badHex b => "bad hex: encoding/hex: invalid byte: " ++ runeText b
  | .domain e => "eip712: domain: " ++ e.text
  | .message e => "eip712: message: " ++ e.text

/-- The value of digits in a base up to sixteen. There has to be one. -/
def digitsValue (base : ℕ) (ds : List Char) : Option ℕ :=
  if ds = [] then none
  else ds.foldlM (fun n c => do
    let d ← fromHexChar c
    if d < base then some (n * base + d) else none) 0

/-- An integer in a base, with or without a sign. -/
def setString (base : ℕ) : List Char → Option ℤ
  | '-' :: ds => (digitsValue base ds).map fun n : ℕ => -(n : ℤ)
  | '+' :: ds => (digitsValue base ds).map fun n : ℕ => (n : ℤ)
  | ds => (digitsValue base ds).map fun n : ℕ => (n : ℤ)

/-- A JSON number, a decimal string or a `0x`-hex string. -/
def bigInt : Json → Except Fault ℤ
  | .number text => match setString 10 text.toList with
    | some n => .ok n
    | none => .error (.badNumber text)
  | .string x =>
    let s := (trimSpace x).toList
    if s.take 2 = ['0', 'x'] ∨ s.take 2 = ['0', 'X'] then
      match setString 16 (s.drop 2) with
      | some n => .ok n
      | none => .error (.badHexNumber x)
    else match setString 10 s with
      | some n => .ok n
      | none => .error (.badNumber x)
  | v => .error (.expectedNumber v.kind)

/-- Bytes without a prefix they may begin with. -/
def trimPrefix (start bs : List UInt8) : List UInt8 :=
  if start <+: bs then bs.drop start.length else bs

/-- The bytes of hexadecimal text, two digits each, or the first byte that is no digit. -/
def decodeDigits : List UInt8 → Except UInt8 (List UInt8)
  | a :: b :: rest => do
    let hi ← (fromHexChar (Char.ofNat a.toNat)).elim (.error a) .ok
    let lo ← (fromHexChar (Char.ofNat b.toNat)).elim (.error b) .ok
    let bs ← decodeDigits rest
    return .ofNat (hi * 16 + lo) :: bs
  | _ => .ok []

/-- Bytes as hexadecimal text. -/
def hexBytes : Json → Except Fault (List UInt8)
  | .string s =>
    let s := trimPrefix (utf8 "0X") (trimPrefix (utf8 "0x") (utf8 s))
    let s := if s.length % 2 = 1 then utf8 "0" ++ s else s
    match decodeDigits s with
    | .ok bs => .ok bs
    | .error b => .error (.badHex b)
  | v => .error (.expectedHex v.kind)

/-- Digits as a machine integer. -/
def atoi (ds : List Char) : Int64 := ds.foldl (fun n c => n * 10 + .ofNat (c.toNat - 48)) 0

/-- The digits after a word, where there is nothing but digits and at least one. -/
def digitsAfter (word typ : String) : Option (List Char) :=
  let rest := typ.toList.drop word.length
  if word.toList <+: typ.toList ∧ rest ≠ [] ∧ rest.all Char.isDigit then some rest else none

/-! ## What is written is read -/

variable {base n d : ℕ} {ds : List Char}

theorem fromHexChar_digitChar (h : d < 16) : fromHexChar (Nat.digitChar d) = some d := by
  revert d
  decide

/-- Digits of a base are read as the number they are of. -/
theorem digitsValue_toDigits (hone : 1 < base) (hbase : base ≤ 16) (n : ℕ) :
    digitsValue base (Nat.toDigits base n) = some n := by
  rw [digitsValue, if_neg Nat.toDigits_ne_nil]
  induction n using Nat.strong_induction_on with
  | _ n ih =>
    rw [Nat.toDigits_eq_if hone]
    split
    · next hsmall => simp [fromHexChar_digitChar (hsmall.trans_le hbase), hsmall]
    · next hbig =>
      have hlast : n % base < base := Nat.mod_lt n (by omega)
      have hlt : n / base < n := Nat.div_lt_self (by omega) hone
      rw [List.foldlM_append, ih _ hlt]
      simp [fromHexChar_digitChar (hlast.trans_le hbase), hlast, Nat.div_add_mod']

theorem setString_digits (h : ∀ c ∈ ds, c.isDigit) :
    setString base ds = (digitsValue base ds).map fun n : ℕ => (n : ℤ) := by
  cases ds with
  | nil => rfl
  | cons c ds =>
    have hc : c.isDigit := h c List.mem_cons_self
    have hminus : c ≠ '-' := fun heq => absurd hc (heq ▸ by decide)
    have hplus : c ≠ '+' := fun heq => absurd hc (heq ▸ by decide)
    rw [setString]
    · simpa using hminus
    · simpa using hplus

/-- A number is read as it is written out. -/
theorem bigInt_number (n : ℤ) : bigInt (.number (toString n)) = .ok n := by
  have hset : ∀ n, setString 10 (Nat.toDigits 10 n) = some (n : ℤ) := fun n => by
    rw [setString_digits fun c hc => Nat.isDigit_of_mem_toDigits (by decide) le_rfl hc,
      digitsValue_toDigits (by decide) (by decide), Option.map_some]
  cases n with
  | ofNat n =>
    have htext : (toString (Int.ofNat n)).toList = Nat.toDigits 10 n := Nat.toList_repr
    rw [bigInt, htext, hset]
    rfl
  | negSucc n =>
    have htext : (toString (Int.negSucc n)).toList = '-' :: Nat.toDigits 10 (n + 1) := by
      change ("-" ++ Nat.repr (n + 1)).toList = _
      rw [String.toList_append, Nat.toList_repr]
      rfl
    rw [bigInt, htext, setString, digitsValue_toDigits (by decide) (by decide)]
    rfl

end SuperAgent.Eip712
