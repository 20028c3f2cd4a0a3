import SuperAgent.Chain.Abi
import SuperAgent.Core.Rlp

/-!
# Items as bytes

The encoder of transactions. Numbers are strings of the fewest bytes, and no
number at all is written as zero is.
-/

namespace SuperAgent.Chain

open Rlp

/-- What can be encoded. -/
inductive RlpArg
  | bytes (bs : List UInt8)
  | string (s : String)
  | uint64 (u : UInt64)
  | bigInt (x : Option ℤ)
  | list (args : List RlpArg)

/-- A 64-bit word in the fewest bytes. -/
def uintBytes (u : UInt64) : List UInt8 :=
  if u = 0 then [] else (uintBytes8 u).dropWhile (· = 0)

/-- The header before so many bytes. -/
def rlpLen (offset : UInt8) (n : ℕ) : List UInt8 :=
  if n < 56 then [offset + .ofNat n]
  else
    let be := uintBytes (.ofNat n)
    (offset + 55 + .ofNat be.length) :: be

/-- A string, which is its own header when it is one small byte. -/
def rlpString (b : List UInt8) : List UInt8 :=
  if b.length = 1 ∧ b.headD 0 < 0x80 then b else rlpLen 0x80 b.length ++ b

mutual

/-- Encode an item. -/
def rlpEncode : RlpArg → List UInt8
  | .bytes bs => rlpString bs
  | .string s => rlpString (utf8 s)
  | .uint64 u => rlpString (uintBytes u)
  | .bigInt none => rlpString []
  | .bigInt (some x) => if x = 0 then rlpString [] else rlpString (bytesOf x.natAbs)
  | .list args => rlpLen 0xc0 (rlpEncodeAll args).length ++ rlpEncodeAll args

/-- Encode items one after the other. -/
def rlpEncodeAll : List RlpArg → List UInt8
  | [] => []
  | arg :: args => rlpEncode arg ++ rlpEncodeAll args

end

mutual

/-- The item something is encoded as: a number is the fewest bytes of its amount. -/
def RlpArg.item : RlpArg → Item
  | .bytes bs => .bytes bs
  | .string s => .bytes (utf8 s)
  | .uint64 u => .bytes (bytesOf u.toNat)
  | .bigInt x => .bytes (bytesOf (x.getD 0).natAbs)
  | .list args => .list (RlpArg.items args)

def RlpArg.items : List RlpArg → List Item
  | [] => []
  | arg :: args => arg.item :: RlpArg.items args

end

variable {b : List UInt8} {u : UInt64} {offset : UInt8} {n : ℕ} {arg : RlpArg} {args : List RlpArg}

theorem items_eq : RlpArg.items args = args.map RlpArg.item := by
  induction args with
  | nil => rfl
  | cons arg args ih => rw [RlpArg.items, ih, List.map_cons]

/-- Without its leading zeros a word is the fewest bytes. -/
theorem uintBytes_eq : uintBytes u = bytesOf u.toNat := by
  have hdrop : (uintBytes8 u).dropWhile (· = 0) = bytesOf u.toNat := by
    rw [uintBytes8, bigEndian_eq u.toNat_lt, List.dropWhile_append_of_pos]
    · cases hbytes : bytesOf u.toNat with
      | nil => rfl
      | cons b bs =>
        have hhead := head_bytesOf (n := u.toNat)
        rw [hbytes, List.head?_cons] at hhead
        exact List.dropWhile_cons_of_neg (by simpa using hhead)
    · intro b hb
      simpa using List.eq_of_mem_replicate hb
  unfold uintBytes
  split
  · next h =>
    rw [h]
    exact bytesOf_zero.symm
  · exact hdrop

theorem rlpLen_eq (h : n < 2 ^ 64) : rlpLen offset n = header offset n := by
  have hn : (UInt64.ofNat n).toNat = n := UInt64.toNat_ofNat_of_lt' h
  unfold rlpLen header
  split
  · rfl
  · rw [uintBytes_eq, hn]

theorem rlpString_eq (h : b.length < 2 ^ 64) : rlpString b = Item.encode (.bytes b) := by
  rw [rlpString, rlpLen_eq h, Item.encode]
  rfl

theorem length_le_rlpString : b.length ≤ (rlpString b).length := by
  unfold rlpString
  split
  · exact le_rfl
  · rw [List.length_append]
    exact Nat.le_add_left _ _

theorem rlpString_eq' (h : (rlpString b).length < 2 ^ 64) :
    rlpString b = Item.encode (.bytes b) :=
  rlpString_eq (length_le_rlpString.trans_lt h)

theorem rlpEncode_bigInt (x : Option ℤ) :
    rlpEncode (.bigInt x) = rlpString (bytesOf (x.getD 0).natAbs) := by
  cases x with
  | none => rw [rlpEncode, Option.getD_none, Int.natAbs_zero, bytesOf_zero]
  | some x =>
    rw [rlpEncode, Option.getD_some]
    split
    · next h => rw [h, Int.natAbs_zero, bytesOf_zero]
    · rfl

/-- What is encoded is the item. -/
theorem rlpEncode_eq (arg : RlpArg) :
    (rlpEncode arg).length < 2 ^ 64 → rlpEncode arg = arg.item.encode := by
  refine @RlpArg.rec (fun arg => (rlpEncode arg).length < 2 ^ 64 → rlpEncode arg = arg.item.encode)
    (fun args => (rlpEncodeAll args).length < 2 ^ 64 →
      rlpEncodeAll args = Item.encodeAll (RlpArg.items args)) ?_ ?_ ?_ ?_ ?_ ?_ ?_ arg
  · intro bs h
    rw [rlpEncode] at h ⊢
    exact rlpString_eq' h
  · intro s h
    rw [rlpEncode] at h ⊢
    exact rlpString_eq' h
  · intro u h
    rw [rlpEncode, uintBytes_eq] at h ⊢
    exact rlpString_eq' h
  · intro x h
    rw [rlpEncode_bigInt] at h ⊢
    exact rlpString_eq' h
  · intro args ih h
    rw [rlpEncode, List.length_append] at h
    rw [rlpEncode, rlpLen_eq (by omega), RlpArg.item, Item.encode, ih (by omega)]
  · intro h
    rfl
  · intro arg args iharg ihargs h
    rw [rlpEncodeAll, List.length_append] at h
    rw [rlpEncodeAll, RlpArg.items, Item.encodeAll, iharg (by omega), ihargs (by omega)]

/-- What is encoded is read as the item, and no other bytes are. -/
theorem decode_eq_iff {bs : List UInt8} (h : (rlpEncode arg).length < 2 ^ 64) :
    decode bs = some arg.item ↔ bs = rlpEncode arg := by
  have heq := rlpEncode_eq arg h
  constructor
  · intro hdecode
    rw [heq, encode_of_decode hdecode]
  · rintro rfl
    rw [heq] at h ⊢
    exact decode_encode h

theorem decode_rlpEncode (h : (rlpEncode arg).length < 2 ^ 64) :
    decode (rlpEncode arg) = some arg.item :=
  (decode_eq_iff h).mpr rfl

end SuperAgent.Chain
