import SuperAgent.Chain.Address
import SuperAgent.Core.Bytes

/-!
# Calls of a contract

Calldata is a selector followed by words. Arrays come after the words, each with
its length before it, and where an array starts is a word among the others.
-/

namespace SuperAgent.Chain

/-- Thirty-two bytes. -/
@[ext] structure Bytes32 where
  bytes : List UInt8
  length_eq : bytes.length = 32
  deriving DecidableEq

/-- Keccak-256. -/
abbrev Hasher := List UInt8 → Bytes32

/-- What one word can be made of. -/
inductive WordArg
  | address (a : Address)
  | bytes32 (w : Bytes32)
  | uint64 (u : UInt64)
  | bigInt (x : ℤ)
  | bool (b : Bool)

/-- A 64-bit word in eight bytes. -/
def uintBytes8 (u : UInt64) : List UInt8 := bigEndian 8 u.toNat

/-- Bytes at the end of a word. -/
def rightAligned (bs : List UInt8) (h : bs.length ≤ 32) : Bytes32 :=
  ⟨List.replicate (32 - bs.length) 0 ++ bs, by
    rw [List.length_append, List.length_replicate, Nat.sub_add_cancel h]⟩

/-- The word of a 64-bit word. -/
def uint64Word (u : UInt64) : Bytes32 := rightAligned (uintBytes8 u) (by
  rw [uintBytes8, length_bigEndian]
  decide)

/-- Encode a value as one word, a negative one in two's complement. What does not fit panics. -/
def word : WordArg → Option Bytes32
  | .address a => some (rightAligned (bigEndian 20 a.toNat) (by
      rw [length_bigEndian]
      decide))
  | .bytes32 w => some w
  | .uint64 u => some (uint64Word u)
  | .bigInt x =>
    let x := if x < 0 then 2 ^ 256 + x else x
    if h : (bytesOf x.natAbs).length ≤ 32 then some (rightAligned (bytesOf x.natAbs) h) else none
  | .bool b => some (rightAligned [if b then 1 else 0] (by
      change 1 ≤ 32
      decide))

/-- The number a word stands for. -/
def Bytes32.toNat (w : Bytes32) : ℕ := ofBytes w.bytes

/-- Decode a signed word. -/
def int128 (w : Bytes32) : ℤ :=
  if (w.bytes.headD 0) &&& 0x80 ≠ 0 then w.toNat - 2 ^ 256 else w.toNat

/-- Decode an unsigned word that fits in 64 bits. -/
def uint64 (w : Bytes32) : UInt64 := .ofNat w.toNat

/-- Words one after the other. -/
def concat (ws : List Bytes32) : List UInt8 := ws.flatMap Bytes32.bytes

/-- The first four bytes of a signature's hash. -/
def selector (keccak : Hasher) (signature : String) : List UInt8 :=
  (keccak (utf8 signature)).bytes.take 4

/-- A call with static arguments. -/
def encode (keccak : Hasher) (signature : String) (args : List WordArg) : Option (List UInt8) :=
  (args.mapM word).map fun ws => selector keccak signature ++ concat ws

/-- What has been written of the arrays: the words that say where they start, the arrays, and where
the next one starts. -/
structure Layout where
  head : List UInt8
  tail : List UInt8
  offset : Int64

/-- One more array. -/
def Layout.add (l : Layout) (arr : List Bytes32) : Layout where
  head := l.head ++ (uint64Word l.offset.toUInt64).bytes
  tail := l.tail ++ (uint64Word (.ofNat arr.length)).bytes ++ concat arr
  offset := l.offset + 32 * (1 + .ofNat arr.length)

/-- A call whose arguments are all arrays. -/
def encodeArrays (keccak : Hasher) (signature : String) (arrays : List (List Bytes32)) :
    List UInt8 :=
  let l := arrays.foldl Layout.add ⟨[], [], 32 * .ofNat arrays.length⟩
  selector keccak signature ++ l.head ++ l.tail

/-- A call whose arguments are words followed by arrays. -/
def encodeCall (keccak : Hasher) (signature : String) (static : List Bytes32)
    (arrays : List (List Bytes32)) : List UInt8 :=
  let out := selector keccak signature ++ concat static
  let l := arrays.foldl Layout.add ⟨out, [], 32 * (.ofNat static.length + .ofNat arrays.length)⟩
  l.head ++ l.tail

/-! ## Reading a call's arguments -/

/-- The word at a position. -/
def wordAt (args : List UInt8) (pos : ℕ) : Option Bytes32 :=
  if h : ((args.drop pos).take 32).length = 32 then some ⟨(args.drop pos).take 32, h⟩ else none

/-- As many words as are asked for from a position on. -/
def wordsAt (args : List UInt8) (pos : ℕ) : ℕ → Option (List Bytes32)
  | 0 => some []
  | n + 1 => do
    let w ← wordAt args pos
    let ws ← wordsAt args (pos + 32) n
    return w :: ws

/-- The array at a position: its length, and as many words. -/
def arrayAt (args : List UInt8) (pos : ℕ) : Option (List Bytes32) := do
  let n ← wordAt args pos
  wordsAt args (pos + 32) n.toNat

/-- The arguments of a call by what there are of them: words, then where each array starts. -/
def decodeCall (statics arrays : ℕ) (args : List UInt8) :
    Option (List Bytes32 × List (List Bytes32)) := do
  let ws ← wordsAt args 0 statics
  let offsets ← wordsAt args (32 * statics) arrays
  let arrs ← offsets.mapM fun o => arrayAt args o.toNat
  return (ws, arrs)

variable {keccak : Hasher} {signature : String} {pre post : List UInt8} {w : Bytes32}
  {ws static : List Bytes32} {arrays : List (List Bytes32)} {n : ℕ}

@[simp] theorem concat_nil : concat [] = [] := rfl

theorem concat_cons : concat (w :: ws) = w.bytes ++ concat ws := rfl

theorem length_concat : (concat ws).length = 32 * ws.length := by
  induction ws with
  | nil => rfl
  | cons w ws ih =>
    rw [concat_cons, List.length_append, ih, w.length_eq, List.length_cons, Nat.mul_succ,
      Nat.add_comm]

/-- A word that was written is read where it was written. -/
theorem wordAt_append : wordAt (pre ++ (w.bytes ++ post)) pre.length = some w := by
  have htake : ((pre ++ (w.bytes ++ post)).drop pre.length).take 32 = w.bytes := by
    rw [List.drop_left]
    exact List.take_left' w.length_eq
  have hlen : (((pre ++ (w.bytes ++ post)).drop pre.length).take 32).length = 32 := by
    rw [htake, w.length_eq]
  rw [wordAt, dif_pos hlen]
  exact congrArg some (Bytes32.ext htake)

theorem wordsAt_append (pre post : List UInt8) (ws : List Bytes32) :
    wordsAt (pre ++ (concat ws ++ post)) pre.length ws.length = some ws := by
  induction ws generalizing pre with
  | nil => rfl
  | cons w ws ih =>
    have hpos : pre.length + 32 = (pre ++ w.bytes).length := by
      rw [List.length_append, w.length_eq]
    rw [List.length_cons, wordsAt, concat_cons, List.append_assoc, wordAt_append, hpos,
      ← List.append_assoc pre, ih]
    rfl

theorem toNat_rightAligned {bs : List UInt8} (h : bs.length ≤ 32) :
    (rightAligned bs h).toNat = ofBytes bs := by
  rw [Bytes32.toNat, rightAligned, ofBytes_append, ofBytes_replicate_zero, Nat.zero_mul,
    Nat.zero_add]

theorem toNat_uint64Word (u : UInt64) : (uint64Word u).toNat = u.toNat := by
  have hlt : u.toNat < 256 ^ 8 := u.toNat_lt
  rw [uint64Word, toNat_rightAligned, uintBytes8, ofBytes_bigEndian, Nat.mod_eq_of_lt hlt]

/-- A word that is a number below `2 ^ 64` stands for it. -/
theorem toNat_uint64Word_ofNat (h : n < 2 ^ 64) : (uint64Word (.ofNat n)).toNat = n := by
  rw [toNat_uint64Word, UInt64.toNat_ofNat_of_lt' h]

theorem arrayAt_append (h : ws.length < 2 ^ 64) :
    arrayAt (pre ++ ((uint64Word (.ofNat ws.length)).bytes ++ (concat ws ++ post))) pre.length =
      some ws := by
  have hpos : pre.length + 32 = (pre ++ (uint64Word (.ofNat ws.length)).bytes).length := by
    rw [List.length_append, (uint64Word _).length_eq]
  rw [arrayAt, wordAt_append]
  rw [Option.bind_eq_bind, Option.bind_some, toNat_uint64Word_ofNat h, hpos, ← List.append_assoc pre,
    wordsAt_append]

/-! ## What a call is made of -/

/-- Where arrays start that are written one after the other. -/
def offsets (start : ℕ) : List (List Bytes32) → List ℕ
  | [] => []
  | arr :: rest => start :: offsets (start + 32 * (1 + arr.length)) rest

/-- Arrays one after the other, each with its length before it. -/
def tails : List (List Bytes32) → List UInt8
  | [] => []
  | arr :: rest => (uint64Word (.ofNat arr.length)).bytes ++ concat arr ++ tails rest

/-- The words that say where arrays start. -/
def heads (start : ℕ) (arrays : List (List Bytes32)) : List Bytes32 :=
  (offsets start arrays).map fun o => uint64Word (.ofNat o)

theorem length_offsets (start : ℕ) : (offsets start arrays).length = arrays.length := by
  induction arrays generalizing start with
  | nil => rfl
  | cons arr rest ih => rw [offsets, List.length_cons, List.length_cons, ih]

/-- The offset is counted on a machine word, and what is written of it is the word. -/
theorem foldl_add (arrays : List (List Bytes32)) (head tail : List UInt8) (start : ℕ) :
    (arrays.foldl Layout.add ⟨head, tail, .ofNat start⟩).head = head ++ concat (heads start arrays) ∧
      (arrays.foldl Layout.add ⟨head, tail, .ofNat start⟩).tail = tail ++ tails arrays := by
  induction arrays generalizing head tail start with
  | nil => exact ⟨(List.append_nil _).symm, (List.append_nil _).symm⟩
  | cons arr rest ih =>
    have hadd : (⟨head, tail, .ofNat start⟩ : Layout).add arr =
        ⟨head ++ (uint64Word (.ofNat start)).bytes,
          tail ++ (uint64Word (.ofNat arr.length)).bytes ++ concat arr,
          .ofNat (start + 32 * (1 + arr.length))⟩ := by
      rw [Layout.add, Int64.ofNat_add, Int64.ofNat_mul, Int64.ofNat_add]
      rfl
    rw [List.foldl_cons, hadd]
    obtain ⟨hhead, htail⟩ := ih (head ++ (uint64Word (.ofNat start)).bytes)
      (tail ++ (uint64Word (.ofNat arr.length)).bytes ++ concat arr) (start + 32 * (1 + arr.length))
    have hheads : heads start (arr :: rest) =
        uint64Word (.ofNat start) :: heads (start + 32 * (1 + arr.length)) rest := rfl
    rw [hhead, htail, hheads, concat_cons]
    constructor
    · rw [List.append_assoc]
    · rw [tails, List.append_assoc, List.append_assoc, List.append_assoc]

theorem encodeCall_eq : encodeCall keccak signature static arrays =
    selector keccak signature ++
      (concat static ++ (concat (heads (32 * (static.length + arrays.length)) arrays) ++
        tails arrays)) := by
  have hstart : (32 * (.ofNat static.length + .ofNat arrays.length) : Int64) =
      .ofNat (32 * (static.length + arrays.length)) := by
    rw [Int64.ofNat_mul, Int64.ofNat_add]
    rfl
  obtain ⟨hhead, htail⟩ := foldl_add arrays
    (selector keccak signature ++ concat static) [] (32 * (static.length + arrays.length))
  rw [encodeCall]
  rw [hstart, hhead, htail, List.nil_append, List.append_assoc, List.append_assoc]

theorem encodeArrays_eq : encodeArrays keccak signature arrays =
    encodeCall keccak signature [] arrays := by
  have hstart : (32 * .ofNat arrays.length : Int64) = .ofNat (32 * arrays.length) :=
    (Int64.ofNat_mul 32 arrays.length).symm
  obtain ⟨hhead, htail⟩ := foldl_add arrays [] [] (32 * arrays.length)
  rw [encodeCall_eq, encodeArrays]
  rw [hstart, hhead, htail, List.nil_append, List.nil_append, concat_nil, List.nil_append,
    List.length_nil, Nat.zero_add, List.append_assoc]

/-- A call with static arguments is one with no arrays. -/
theorem encode_eq {args : List WordArg} (hwords : args.mapM word = some ws) :
    encode keccak signature args = some (encodeCall keccak signature ws []) := by
  rw [encode, hwords, Option.map_some, encodeCall_eq]
  exact congrArg (fun out => some (selector keccak signature ++ out))
    (List.append_nil (concat ws)).symm

/-! ## What is written is read back -/

theorem length_heads (start : ℕ) : (heads start arrays).length = arrays.length := by
  rw [heads, List.length_map, length_offsets]

/-- Every array is read where its offset says. -/
theorem arraysAt_tails {start : ℕ} (hstart : pre.length = start)
    (hsize : start + (tails arrays).length < 2 ^ 64) :
    (heads start arrays).mapM (fun o => arrayAt (pre ++ tails arrays) o.toNat) = some arrays := by
  induction arrays generalizing pre start with
  | nil => rfl
  | cons arr rest ih =>
    have hheads : heads start (arr :: rest) =
        uint64Word (.ofNat start) :: heads (start + 32 * (1 + arr.length)) rest := rfl
    have hlen : (tails (arr :: rest)).length =
        32 * (1 + arr.length) + (tails rest).length := by
      rw [tails, List.length_append, List.length_append, length_concat, (uint64Word _).length_eq]
      ring
    have harr : arrayAt (pre ++ tails (arr :: rest)) (uint64Word (.ofNat start)).toNat =
        some arr := by
      rw [toNat_uint64Word_ofNat (by omega), ← hstart, tails, List.append_assoc]
      exact arrayAt_append (by omega)
    have hnext : (pre ++ ((uint64Word (.ofNat arr.length)).bytes ++ concat arr)).length =
        start + 32 * (1 + arr.length) := by
      rw [List.length_append, List.length_append, length_concat, (uint64Word _).length_eq, hstart]
      ring
    have htails : pre ++ ((uint64Word (.ofNat arr.length)).bytes ++ concat arr) ++ tails rest =
        pre ++ tails (arr :: rest) := by
      rw [tails, List.append_assoc]
    have hrest := ih hnext (by omega)
    rw [htails] at hrest
    rw [hheads, List.mapM_cons, harr, Option.bind_eq_bind, Option.bind_some, hrest]
    rfl

theorem decodeCall_encodeCall (hsize : (encodeCall keccak signature static arrays).length < 2 ^ 64) :
    decodeCall static.length arrays.length
      ((encodeCall keccak signature static arrays).drop 4) = some (static, arrays) := by
  have hselector : (selector keccak signature).length = 4 := by
    rw [selector, List.length_take, (keccak _).length_eq]
    rfl
  have hstart : (concat static ++ concat (heads (32 * (static.length + arrays.length)) arrays)).length =
      32 * (static.length + arrays.length) := by
    rw [List.length_append, length_concat, length_concat, length_heads]
    ring
  rw [encodeCall_eq, List.length_append, hselector, ← List.append_assoc, List.length_append,
    hstart] at hsize
  have hwords := wordsAt_append []
    (concat (heads (32 * (static.length + arrays.length)) arrays) ++ tails arrays) static
  have hheads := wordsAt_append (concat static) (tails arrays)
    (heads (32 * (static.length + arrays.length)) arrays)
  have harrays := arraysAt_tails hstart (show _ + (tails arrays).length < 2 ^ 64 by omega)
  rw [length_concat, length_heads] at hheads
  rw [List.append_assoc] at harrays
  rw [encodeCall_eq, List.drop_left' hselector, decodeCall]
  rw [List.nil_append, List.length_nil] at hwords
  rw [hwords, hheads, Option.bind_eq_bind, Option.bind_some, Option.bind_eq_bind, Option.bind_some,
    harrays]
  rfl

/-! ## Integers -/

theorem and_0x80 (b : UInt8) : b &&& 0x80 ≠ 0 ↔ 128 ≤ b.toNat := by
  have hall : ∀ n : Fin 256, UInt8.ofNat n.val &&& 0x80 ≠ 0 ↔ 128 ≤ n.val := by
    decide +kernel
  have hb := hall ⟨b.toNat, b.toNat_lt⟩
  rwa [UInt8.ofNat_toNat] at hb

/-- The first bit of a word says whether it stands for `2 ^ 255` or more. -/
theorem sign_iff : (w.bytes.headD 0) &&& 0x80 ≠ 0 ↔ 2 ^ 255 ≤ w.toNat := by
  rw [and_0x80, Bytes32.toNat]
  obtain ⟨bytes, hlen⟩ := w
  cases bytes with
  | nil => cases hlen
  | cons b bs =>
    have hbs : bs.length = 31 := Nat.succ.inj hlen
    have hlt : ofBytes bs < 256 ^ 31 := hbs ▸ ofBytes_lt
    rw [List.headD_cons, ofBytes_cons, hbs]
    omega

theorem int128_eq : int128 w = if 2 ^ 255 ≤ w.toNat then (w.toNat - 2 ^ 256 : ℤ) else w.toNat :=
  if_congr sign_iff rfl rfl

/-- The word of a number below `2 ^ 256`. -/
theorem word_bigInt (h : n < 2 ^ 256) : ∃ w, word (.bigInt n) = some w ∧ w.toNat = n := by
  have hfits : (bytesOf n).length ≤ 32 := length_bytesOf_le_iff.mpr h
  refine ⟨rightAligned (bytesOf n) hfits, ?_, ?_⟩
  · have hpos : ¬(n : ℤ) < 0 := by omega
    simp only [word, if_neg hpos, Int.natAbs_natCast, dif_pos hfits]
  · rw [toNat_rightAligned, ofBytes_bytesOf]

/-- A negative number is written as the number `2 ^ 256` above it. -/
theorem word_bigInt_neg {x : ℤ} (hx : x < 0) (hfits : 0 ≤ 2 ^ 256 + x) :
    word (.bigInt x) = word (.bigInt (2 ^ 256 + x)) := by
  simp only [word, if_pos hx, if_neg (not_lt.mpr hfits)]

theorem toNat_inj {w v : Bytes32} (h : w.toNat = v.toNat) : w = v :=
  Bytes32.ext (eq_of_ofBytes_eq (w.length_eq.trans v.length_eq.symm) h)

/-- A word of a 64-bit word is the word of its number. -/
theorem word_uint64 (u : UInt64) : word (.uint64 u) = word (.bigInt u.toNat) := by
  have hlt : u.toNat < 2 ^ 256 := u.toNat_lt.trans (by decide)
  obtain ⟨w, hword, hw⟩ := word_bigInt hlt
  rw [hword, toNat_inj (hw.trans (toNat_uint64Word u).symm)]
  rfl

/-- The signed reader reads what was written. -/
theorem int128_word {x : ℤ} (hlo : -2 ^ 255 ≤ x) (hhi : x < 2 ^ 255) :
    ∃ w, word (.bigInt x) = some w ∧ int128 w = x := by
  rcases lt_or_ge x 0 with hneg | hpos
  · obtain ⟨n, hn⟩ := Int.eq_ofNat_of_zero_le (show 0 ≤ 2 ^ 256 + x by omega)
    obtain ⟨w, hword, hw⟩ := word_bigInt (n := n) (by omega)
    refine ⟨w, ?_, ?_⟩
    · rw [word_bigInt_neg hneg (by omega), hn, hword]
    · rw [int128_eq, hw, if_pos (by omega)]
      omega
  · obtain ⟨n, rfl⟩ := Int.eq_ofNat_of_zero_le hpos
    obtain ⟨w, hword, hw⟩ := word_bigInt (n := n) (by omega)
    refine ⟨w, hword, ?_⟩
    rw [int128_eq, hw, if_neg (by omega)]

/-- The unsigned reader reads what was written. -/
theorem uint64_word (h : n < 2 ^ 64) :
    ∃ w, word (.bigInt n) = some w ∧ word (.uint64 (.ofNat n)) = some w ∧ (uint64 w).toNat = n := by
  have hu : (UInt64.ofNat n).toNat = n := UInt64.toNat_ofNat_of_lt' h
  have hword := word_uint64 (.ofNat n)
  rw [hu] at hword
  refine ⟨uint64Word (.ofNat n), hword.symm, rfl, ?_⟩
  rw [uint64, toNat_uint64Word, hu, hu]

/-- The arguments of a call are read back from what is written of them, arrays alone are written as a
call without words is, and an integer is read back from its word. -/
theorem calls_read_back (keccak : Hasher) (signature : String) :
    (∀ (static : List Bytes32) (arrays : List (List Bytes32)),
        (encodeCall keccak signature static arrays).length < 2 ^ 64 →
          decodeCall static.length arrays.length
            ((encodeCall keccak signature static arrays).drop 4) = some (static, arrays)) ∧
      (∀ arrays : List (List Bytes32),
        encodeArrays keccak signature arrays = encodeCall keccak signature [] arrays) ∧
      (∀ x : ℤ, -2 ^ 255 ≤ x → x < 2 ^ 255 → ∃ w, word (.bigInt x) = some w ∧ int128 w = x) ∧
      ∀ n : ℕ, n < 2 ^ 64 → ∃ w, word (.bigInt n) = some w ∧
        word (.uint64 (.ofNat n)) = some w ∧ (uint64 w).toNat = n :=
  ⟨fun _ _ => decodeCall_encodeCall, fun _ => encodeArrays_eq, fun _ => int128_word,
    fun _ => uint64_word⟩

/-- The call that settles a week with two winners. -/
theorem calls_read_back_settle :
    decodeCall 2 3
        ((encodeCall
          (fun _ => ⟨bigEndian 32 0x230bc22caf4861c29e6fa209735c882736b96d90652804d714332cd2802aac2c,
            length_bigEndian⟩)
          "settle(uint64,bytes32,address[],uint256[],int128[])"
          [uint64Word 2958, uint64Word 1]
          [[uint64Word 10, uint64Word 11], [uint64Word 5000000, uint64Word 3000000],
            [uint64Word 12000000, uint64Word 7]]).drop 4) =
      some ([uint64Word 2958, uint64Word 1],
        [[uint64Word 10, uint64Word 11], [uint64Word 5000000, uint64Word 3000000],
          [uint64Word 12000000, uint64Word 7]]) :=
  (calls_read_back _ _).1 [uint64Word 2958, uint64Word 1]
    [[uint64Word 10, uint64Word 11], [uint64Word 5000000, uint64Word 3000000],
      [uint64Word 12000000, uint64Word 7]] (by
    decide +kernel)

end SuperAgent.Chain
