import SuperAgent.Eip712.Types

/-!
# The digest of typed data

A struct is hashed with the hash of its type before its members, a word each. A
member that is a struct itself is hashed the same way, as deep as the values go.
-/

namespace SuperAgent.Eip712

open Chain

/-- How encoding comes to an end before it is done. -/
inductive Stop
  | fault (e : Fault)
  | panic

/-- A fault with where it came from. -/
def Stop.wrap (within : Fault → Fault) : Stop → Stop
  | .fault e => .fault (within e)
  | .panic => .panic

/-- The memory of a machine: how far a one can be shifted. -/
structure Memory where
  room : ℕ
  fits_word : 256 ≤ room

/-! ## Atomic values -/

/-- Bytes at the start of a word. -/
def leftAligned (bs : List UInt8) : Bytes32 :=
  ⟨(bs ++ List.replicate 32 0).take 32, by
    rw [List.length_take, List.length_append, List.length_replicate, min_eq_left]
    exact Nat.le_add_left 32 bs.length⟩

/-- The digits of a number's absolute value at the end of a word. What does not fit panics. -/
def fillBytes (n : ℤ) : Except Stop Bytes32 :=
  if h : (bytesOf n.natAbs).length ≤ 32 then .ok (rightAligned (bytesOf n.natAbs) h)
  else .error .panic

/-- What the name of a type that is no struct is taken for. -/
inductive Kind
  | string
  | bytes
  | bool
  | address
  | fixed (n : Int64)
  | uint (bits : Int64)
  | int (bits : Int64)
  deriving DecidableEq

/-- Read a type's name. A width is whatever digits there are. -/
def readType (typ : String) : Option Kind :=
  if typ = "string" then some .string
  else if typ = "bytes" then some .bytes
  else if typ = "bool" then some .bool
  else if typ = "address" then some .address
  else (digitsAfter "bytes" typ).map (fun ds => .fixed (atoi ds)) <|>
    (digitsAfter "uint" typ).map (fun ds => .uint (atoi ds)) <|>
    (digitsAfter "int" typ).map (fun ds => .int (atoi ds))

/-- How far a one is shifted for the bound of a signed width. -/
def limitShift (bits : Int64) : ℕ := (bits - 1).toUInt64.toNat

theorem length_flag_le (b : Bool) : [if b then (1 : UInt8) else 0].length ≤ 32 := by
  change 1 ≤ 32
  decide

theorem length_address_le {bs : List UInt8} (h : bs.length = 20) : bs.length ≤ 32 := by
  rw [h]
  decide

/-- The word of a value that is no struct. -/
def Kind.encode (keccak : Hasher) (memory : Memory) (typ : String) (v : Json) :
    Kind → Except Stop Bytes32
  | .string => match v with
    | .string s => .ok (keccak (utf8 s))
    | _ => .error (.fault .expectedString)
  | .bytes => do
    let b ← (hexBytes v).mapError .fault
    return keccak b
  | .bool => match v with
    | .bool b => .ok (rightAligned [if b then 1 else 0] (length_flag_le b))
    | _ => .error (.fault .expectedBool)
  | .address => do
    let b ← (hexBytes v).mapError .fault
    if h : b.length = 20 then .ok (rightAligned b (length_address_le h))
    else .error (.fault (.addressLength b.length))
  | .fixed n =>
    if n < 1 ∨ n > 32 then .error (.fault (.invalidType typ))
    else do
      let b ← (hexBytes v).mapError .fault
      if b.length ≠ n.toInt then .error (.fault (.bytesLength typ n b.length))
      else return leftAligned b
  | .uint bits => do
    let n ← (bigInt v).mapError .fault
    if n < 0 ∨ bits.toInt < n.natAbs.size then .error (.fault (.outOfRange typ))
    else fillBytes n
  | .int bits => do
    let n ← (bigInt v).mapError .fault
    if memory.room < limitShift bits then .error .panic
    else
      let limit : ℤ := 2 ^ limitShift bits
      if n < -limit ∨ limit ≤ n then .error (.fault (.outOfRange typ))
      else if n < 0 then fillBytes (n + 2 ^ 256)
      else fillBytes n

/-- The word of a value whose type is no struct. -/
def encodeAtom (keccak : Hasher) (memory : Memory) (typ : String) (v : Json) :
    Except Stop Bytes32 :=
  match readType typ with
  | some kind => kind.encode keccak memory typ v
  | none => .error (.fault (.unsupported typ))

/-! ## Structs -/

theorem sizeOf_lookup {name : String} {v : Json} {value : List (String × Json)}
    (h : value.lookup name = some v) : sizeOf v < sizeOf value := by
  obtain ⟨pre, post, rfl, -⟩ := List.lookup_eq_some_iff.mp h
  have hmem : (name, v) ∈ pre ++ (name, v) :: post := List.mem_append_right _ List.mem_cons_self
  have hlt := List.sizeOf_lt_of_mem hmem
  have hpair : sizeOf (name, v) = 1 + sizeOf name + sizeOf v := rfl
  omega

section

variable (td : TypedData) (keccak : Hasher) (memory : Memory)

mutual

/-- The word of a value of a type. -/
def encodeField (typ : String) (v : Json) : Except Stop Bytes32 :=
  if IsArray typ then .error (.fault (.arrayType typ))
  else if (td.fields typ).isSome then
    match v with
    | .object m => hashStruct typ m
    | _ => .error (.fault (.expectedObject typ))
  else encodeAtom keccak memory typ v
termination_by (sizeOf v, 0, 0)
decreasing_by
  left
  rw [Json.object.sizeOf_spec]
  omega

/-- The hash of a struct. -/
def hashStruct (typeName : String) (value : List (String × Json)) : Except Stop Bytes32 := do
  let enc ← (encodeType td typeName).mapError .fault
  let data ← encodeData typeName value ((td.fields typeName).getD [])
  return keccak ((keccak (utf8 enc)).bytes ++ data)
termination_by (sizeOf value, 1, 0)
decreasing_by
  right
  left
  decide

/-- The words of a struct's members. -/
def encodeData (typeName : String) (value : List (String × Json)) :
    List Field → Except Stop (List UInt8)
  | [] => .ok []
  | f :: fields =>
    match _h : value.lookup f.name with
    | none => .error (.fault (.missing typeName f.name))
    | some v => do
      let word ← (encodeField f.type v).mapError (Stop.wrap (.field typeName f.name))
      let out ← encodeData typeName value fields
      return word.bytes ++ out
termination_by fields => (sizeOf value, 0, fields.length)
decreasing_by
  · left
    exact sizeOf_lookup _h
  · right
    right
    exact Nat.lt_succ_self _

end

/-- The digest a wallet signs. -/
def digest : Except Stop Bytes32 := do
  let separator ← (hashStruct td keccak memory "EIP712Domain" td.domain).mapError
    (Stop.wrap .domain)
  let msg ← (hashStruct td keccak memory td.primaryType td.message).mapError (Stop.wrap .message)
  return keccak ([0x19, 0x01] ++ separator.bytes ++ msg.bytes)

end

end SuperAgent.Eip712
