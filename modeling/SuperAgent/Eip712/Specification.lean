import SuperAgent.Eip712.Digest

/-!
# What typed data stands for

The standard's own types are few: `bytes1` to `bytes32`, and integers of eight
bits to 256, eight more each time. A value of one is a word, and a struct's hash
is made of its members' words. A document without a meaning has no digest.
-/

namespace SuperAgent.Eip712

open Chain

/-- The types that are no struct. A width is counted in bytes, less one. -/
inductive Atom
  | string
  | bytes
  | bool
  | address
  | fixed (k : Fin 32)
  | uint (k : Fin 32)
  | int (k : Fin 32)
  deriving DecidableEq

/-- The name of a type. -/
def Atom.name : Atom → String
  | .string => "string"
  | .bytes => "bytes"
  | .bool => "bool"
  | .address => "address"
  | .fixed k => "bytes" ++ toString (k.val + 1)
  | .uint k => "uint" ++ toString (8 * (k.val + 1))
  | .int k => "int" ++ toString (8 * (k.val + 1))

/-- Every type that is no struct. -/
def Atom.all : List Atom :=
  [.string, .bytes, .bool, .address] ++ (List.finRange 32).map .fixed ++
    (List.finRange 32).map .uint ++ (List.finRange 32).map .int

theorem Atom.mem_all (atom : Atom) : atom ∈ Atom.all := by
  cases atom <;> simp [Atom.all]

/-- The type of a name. -/
def Atom.ofName (typ : String) : Option Atom := Atom.all.find? fun atom => atom.name = typ

/-- An integer as a word, a negative one in two's complement. -/
def intWord (n : ℤ) : Bytes32 := ⟨bigEndian 32 (n % 2 ^ 256).toNat, length_bigEndian⟩

/-- The word of a value. -/
def Atom.encode (keccak : Hasher) (v : Json) : Atom → Option Bytes32
  | .string => match v with
    | .string s => some (keccak (utf8 s))
    | _ => none
  | .bytes => (hexBytes v).toOption.map keccak
  | .bool => match v with
    | .bool b => some (intWord (if b then 1 else 0))
    | _ => none
  | .address => do
    let b ← (hexBytes v).toOption
    if b.length = 20 then some (intWord (ofBytes b)) else none
  | .fixed k => do
    let b ← (hexBytes v).toOption
    if b.length = k.val + 1 then some (leftAligned b) else none
  | .uint k => do
    let n ← (bigInt v).toOption
    if 0 ≤ n ∧ n < 2 ^ (8 * (k.val + 1)) then some (intWord n) else none
  | .int k => do
    let n ← (bigInt v).toOption
    if -2 ^ (8 * k.val + 7) ≤ n ∧ n < 2 ^ (8 * k.val + 7) then some (intWord n) else none

section

variable (td : TypedData) (keccak : Hasher)

mutual

/-- The word of a value of a type. Arrays are left out. -/
noncomputable def fieldWord (typ : String) (v : Json) : Option Bytes32 :=
  if IsArray typ then none
  else if (td.fields typ).isSome then
    match v with
    | .object m => structHash typ m
    | _ => none
  else (Atom.ofName typ).bind (Atom.encode keccak v)
termination_by (sizeOf v, 0, 0)
decreasing_by
  left
  rw [Json.object.sizeOf_spec]
  omega

/-- The hash of a struct. -/
noncomputable def structHash (name : String) (value : List (String × Json)) : Option Bytes32 := do
  let fields ← td.fields name
  let data ← dataWords value fields
  return keccak ((keccak (utf8 (typeEncoding td name))).bytes ++ data)
termination_by (sizeOf value, 1, 0)
decreasing_by
  right
  left
  decide

/-- The words of a struct's members. -/
noncomputable def dataWords (value : List (String × Json)) : List Field → Option (List UInt8)
  | [] => some []
  | f :: fields =>
    match _h : value.lookup f.name with
    | none => none
    | some v => do
      let word ← fieldWord f.type v
      let out ← dataWords value fields
      return word.bytes ++ out
termination_by fields => (sizeOf value, 0, fields.length)
decreasing_by
  · left
    exact sizeOf_lookup _h
  · right
    right
    exact Nat.lt_succ_self _

end

/-- The digest of a document. -/
noncomputable def documentDigest : Option Bytes32 := do
  let separator ← structHash td keccak "EIP712Domain" td.domain
  let msg ← structHash td keccak td.primaryType td.message
  return keccak ([0x19, 0x01] ++ separator.bytes ++ msg.bytes)

end

end SuperAgent.Eip712
