import SuperAgent.Chain.Rlp

/-!
# Transactions

An EIP-1559 transaction is signed over its fields and sent with its signature
after them. Both are one list, and what the list is read as settles what was
signed.
-/

namespace SuperAgent.Chain

open Rlp

/-- An EIP-1559 transaction. Without an address it creates a contract. -/
structure Tx where
  chainID : UInt64
  nonce : UInt64
  tipCap : Option ℤ
  feeCap : Option ℤ
  gas : UInt64
  toAddress : Option Address
  value : Option ℤ
  data : List UInt8

/-- The bytes of an address. -/
def addressBytes (a : Address) : List UInt8 := bigEndian 20 a.toNat

/-- What is signed of a transaction. -/
def Tx.fields (t : Tx) : List RlpArg :=
  let dest := match t.toAddress with
    | none => []
    | some a => addressBytes a
  let value := t.value.getD 0
  [.uint64 t.chainID, .uint64 t.nonce, .bigInt t.tipCap, .bigInt t.feeCap, .uint64 t.gas, .bytes dest,
    .bigInt (some value), .bytes t.data, .list []]

/-- What the signing hash is the hash of. -/
def Tx.preimage (t : Tx) : List UInt8 := 0x02 :: rlpEncode (.list t.fields)

def Tx.signingHash (keccak : Hasher) (t : Tx) : Bytes32 := keccak t.preimage

/-- The raw signed transaction. A compact signature is `[recovery+27, R, S]`. -/
def sign (keccak : Hasher) (signCompact : Bytes32 → List UInt8) (t : Tx) :
    Except String (List UInt8) :=
  let sig := signCompact (t.signingHash keccak)
  if sig.length ≠ 65 then .error s!"chain: unexpected signature length {sig.length}"
  else
    let v := (sig.headD 0 - 27).toUInt64
    let r := ofBytes ((sig.drop 1).take 32)
    let s := ofBytes ((sig.drop 33).take 32)
    .ok (0x02 :: rlpEncode (.list (t.fields ++ [.uint64 v, .bigInt (some r), .bigInt (some s)])))

/-! ## What a transaction says -/

/-- Its amounts are amounts. -/
def Tx.NonNegative (t : Tx) : Prop := 0 ≤ t.tipCap.getD 0 ∧ 0 ≤ t.feeCap.getD 0 ∧ 0 ≤ t.value.getD 0

/-- Two transactions that differ in no field, where no amount at all is zero. -/
structure Tx.Same (t u : Tx) : Prop where
  chainID : t.chainID = u.chainID
  nonce : t.nonce = u.nonce
  tipCap : t.tipCap.getD 0 = u.tipCap.getD 0
  feeCap : t.feeCap.getD 0 = u.feeCap.getD 0
  gas : t.gas = u.gas
  toAddress : t.toAddress = u.toAddress
  value : t.value.getD 0 = u.value.getD 0
  data : t.data = u.data

/-- An amount as an item. -/
def amount (n : ℕ) : Item := .bytes (bytesOf n)

/-- The items of a transaction. -/
def Tx.items (t : Tx) : List Item :=
  [amount t.chainID.toNat, amount t.nonce.toNat, amount (t.tipCap.getD 0).natAbs,
    amount (t.feeCap.getD 0).natAbs, amount t.gas.toNat, .bytes ((t.toAddress.map addressBytes).getD []),
    amount (t.value.getD 0).natAbs, .bytes t.data, .list []]

variable {t u : Tx} {m n : ℕ} {x y : ℤ}

theorem map_item_fields : t.fields.map RlpArg.item = t.items := by
  obtain ⟨chainID, nonce, tipCap, feeCap, gas, dest, value, data⟩ := t
  cases dest <;> rfl

theorem item_fields : (RlpArg.list t.fields).item = .list t.items := by
  rw [RlpArg.item, items_eq, map_item_fields]

theorem amount_inj (h : amount m = amount n) : m = n := by
  have hbytes := congrArg ofBytes (Item.bytes.inj h)
  rwa [ofBytes_bytesOf, ofBytes_bytesOf] at hbytes

theorem uint64_inj {c d : UInt64} (h : amount c.toNat = amount d.toNat) : c = d :=
  UInt64.toNat_inj.mp (amount_inj h)

theorem natAbs_inj (hx : 0 ≤ x) (hy : 0 ≤ y) (h : amount x.natAbs = amount y.natAbs) : x = y := by
  have habs := amount_inj h
  omega

/-- No address is as long as one. -/
theorem addressBytes_inj {a b : Option Address}
    (h : Item.bytes ((a.map addressBytes).getD []) = .bytes ((b.map addressBytes).getD [])) :
    a = b := by
  have hbytes := Item.bytes.inj h
  cases a with
  | none =>
    cases b with
    | none => rfl
    | some b =>
      have hlen := congrArg List.length hbytes
      rw [Option.map_some, Option.getD_some, addressBytes, length_bigEndian] at hlen
      cases hlen
  | some a =>
    cases b with
    | none =>
      have hlen := congrArg List.length hbytes
      rw [Option.map_some, Option.getD_some, addressBytes, length_bigEndian] at hlen
      cases hlen
    | some b =>
      have hnat := congrArg ofBytes hbytes
      have ha : a.toNat < 256 ^ 20 := a.isLt
      have hb : b.toNat < 256 ^ 20 := b.isLt
      rw [Option.map_some, Option.getD_some, Option.map_some, Option.getD_some, addressBytes,
        addressBytes, ofBytes_bigEndian, ofBytes_bigEndian, Nat.mod_eq_of_lt ha,
        Nat.mod_eq_of_lt hb] at hnat
      rw [BitVec.eq_of_toNat_eq hnat]

theorem same_of_items (ht : t.NonNegative) (hu : u.NonNegative) (h : t.items = u.items) :
    t.Same u := by
  obtain ⟨htip, hfee, hvalue⟩ := ht
  obtain ⟨htip', hfee', hvalue'⟩ := hu
  unfold Tx.items at h
  simp only [List.cons.injEq, and_true] at h
  obtain ⟨hchain, hnonce, htipCap, hfeeCap, hgas, hto, hval, hdata⟩ := h
  exact {
    chainID := uint64_inj hchain
    nonce := uint64_inj hnonce
    tipCap := natAbs_inj htip htip' htipCap
    feeCap := natAbs_inj hfee hfee' hfeeCap
    gas := uint64_inj hgas
    toAddress := addressBytes_inj hto
    value := natAbs_inj hvalue hvalue' hval
    data := Item.bytes.inj hdata }

/-- Transactions with one preimage are the same. -/
theorem same_of_preimage (ht : t.NonNegative) (hu : u.NonNegative)
    (hsize : t.preimage.length < 2 ^ 64) (h : t.preimage = u.preimage) : t.Same u := by
  have hfields : rlpEncode (.list t.fields) = rlpEncode (.list u.fields) := (List.cons.inj h).2
  rw [Tx.preimage, List.length_cons] at hsize
  have hdecode := decode_rlpEncode (show (rlpEncode (.list t.fields)).length < 2 ^ 64 by omega)
  have hdecode' := decode_rlpEncode
    (show (rlpEncode (.list u.fields)).length < 2 ^ 64 by rw [← hfields]; omega)
  rw [hfields, hdecode', item_fields, item_fields] at hdecode
  exact same_of_items ht hu (Item.list.inj (Option.some.inj hdecode)).symm

theorem decode_fields (t : Tx) (args : List RlpArg)
    (hsize : (0x02 :: rlpEncode (.list (t.fields ++ args))).length < 2 ^ 64) :
    decode (rlpEncode (.list (t.fields ++ args))) =
      some (.list (t.items ++ args.map RlpArg.item)) := by
  rw [List.length_cons] at hsize
  rw [decode_rlpEncode (by omega), RlpArg.item, items_eq, List.map_append, map_item_fields]

/-- A compact signature is a byte and two numbers. -/
theorem eq_of_length {sig : List UInt8} (h : sig.length = 65) :
    sig = (sig.headD 0 - 27 + 27) ::
      (bigEndian 32 (ofBytes ((sig.drop 1).take 32)) ++
        bigEndian 32 (ofBytes ((sig.drop 33).take 32))) := by
  cases sig with
  | nil => cases h
  | cons b bs =>
    have hbs : bs.length = 64 := Nat.succ.inj h
    have hr : (bs.take 32).length = 32 := List.length_take_of_le (by omega)
    have hs : ((bs.drop 32).take 32).length = 32 :=
      List.length_take_of_le (by rw [List.length_drop]; omega)
    have hlast : (bs.drop 32).take 32 = bs.drop 32 :=
      List.take_of_length_le (by rw [List.length_drop]; omega)
    have hrbytes := bigEndian_ofBytes (bs.take 32)
    have hsbytes := bigEndian_ofBytes ((bs.drop 32).take 32)
    rw [hr] at hrbytes
    rw [hs] at hsbytes
    rw [List.headD_cons, UInt8.sub_add_cancel, List.drop_succ_cons, List.drop_zero,
      List.drop_succ_cons, hrbytes, hsbytes, hlast, List.take_append_drop]

/-- What is sent is the fields that were signed, and after them the signature. -/
theorem decode_sign {keccak : Hasher} {signCompact : Bytes32 → List UInt8} {raw : List UInt8}
    (h : sign keccak signCompact t = .ok raw) (hsize : raw.length < 2 ^ 64) :
    ∃ (v : UInt8) (r s : ℕ) (rest : List UInt8),
      signCompact (keccak t.preimage) = (v + 27) :: (bigEndian 32 r ++ bigEndian 32 s) ∧
        raw = 0x02 :: rest ∧
          decode rest = some (.list (t.items ++ [amount v.toNat, amount r, amount s])) := by
  unfold sign Tx.signingHash at h
  generalize signCompact (keccak t.preimage) = sig at h ⊢
  by_cases hlen : sig.length = 65
  · rw [if_neg (not_not.mpr hlen)] at h
    cases h
    have hdecode := decode_fields t _ hsize
    refine ⟨_, _, _, _, eq_of_length hlen, rfl, hdecode.trans ?_⟩
    simp only [List.map_cons, List.map_nil, RlpArg.item, UInt8.toNat_toUInt64, Option.getD_some,
      Int.natAbs_natCast]
    rfl
  · rw [if_pos hlen] at h
    cases h

/-- Bytes a number is written in that could not be fewer. -/
structure Minimal (bs : List UInt8) (n : ℕ) : Prop where
  value : ofBytes bs = n
  head : bs.head? ≠ some 0
  zero : n = 0 → bs = []

theorem minimal_bytesOf : Minimal (bytesOf n) n where
  value := ofBytes_bytesOf
  head := head_bytesOf
  zero h := by rw [h, bytesOf_zero]

/-- What is encoded is read as itself and nothing else is; numbers are written in as few bytes as they
need. A transaction is what its preimage says, and what is sent is that and its signature. -/
theorem encoding_canonical :
    (∀ arg, (rlpEncode arg).length < 2 ^ 64 →
        ∀ bs, decode bs = some arg.item ↔ bs = rlpEncode arg) ∧
      (∀ arg other, (rlpEncode arg).length < 2 ^ 64 → arg.item ≠ other.item →
        rlpEncode arg ≠ rlpEncode other) ∧
      (∀ u : UInt64, ∃ bs, (RlpArg.uint64 u).item = .bytes bs ∧ Minimal bs u.toNat) ∧
      (∀ x : ℤ, 0 ≤ x → ∃ bs, (RlpArg.bigInt (some x)).item = .bytes bs ∧ Minimal bs x.toNat) ∧
      (∀ t u : Tx, t.NonNegative → u.NonNegative → t.preimage.length < 2 ^ 64 → ¬t.Same u →
        t.preimage ≠ u.preimage) ∧
      (∀ t : Tx, t.preimage.length < 2 ^ 64 →
        ∃ rest, t.preimage = 0x02 :: rest ∧ decode rest = some (.list t.items)) ∧
      ∀ (keccak : Hasher) (signCompact : Bytes32 → List UInt8) (t : Tx) (raw : List UInt8),
        sign keccak signCompact t = .ok raw → raw.length < 2 ^ 64 →
          ∃ (v : UInt8) (r s : ℕ) (rest : List UInt8),
            signCompact (keccak t.preimage) = (v + 27) :: (bigEndian 32 r ++ bigEndian 32 s) ∧
              raw = 0x02 :: rest ∧
                decode rest = some (.list (t.items ++ [amount v.toNat, amount r, amount s])) := by
  refine ⟨?_, ?_, ?_, ?_, ?_, ?_, ?_⟩
  · intro arg hsize bs
    exact decode_eq_iff hsize
  · intro arg other hsize hne heq
    have hdecode := decode_rlpEncode hsize
    rw [heq, decode_rlpEncode (heq ▸ hsize)] at hdecode
    exact hne (Option.some.inj hdecode).symm
  · intro u
    exact ⟨_, rfl, minimal_bytesOf⟩
  · intro x hx
    refine ⟨_, rfl, ?_⟩
    have habs : x.natAbs = x.toNat := by omega
    rw [Option.getD_some, habs]
    exact minimal_bytesOf
  · intro t u ht hu hsize hne heq
    exact hne (same_of_preimage ht hu hsize heq)
  · intro t hsize
    have hdecode := decode_fields t [] (by rwa [List.append_nil])
    rw [List.append_nil, List.map_nil, List.append_nil] at hdecode
    exact ⟨_, rfl, hdecode⟩
  · intro keccak signCompact t raw h hsize
    exact decode_sign h hsize

/-- A contract is created, and one transaction later. -/
theorem encoding_canonical_create :
    (⟨1, 0, none, none, 21000, none, none, []⟩ : Tx).preimage ≠
        (⟨1, 1, none, none, 21000, none, none, []⟩ : Tx).preimage ∧
      ∃ (v : UInt8) (r s : ℕ) (rest : List UInt8),
        27 :: (bigEndian 32 1 ++ bigEndian 32 2) = (v + 27) :: (bigEndian 32 r ++ bigEndian 32 s) ∧
          0x02 :: rlpEncode (.list ((⟨1, 0, none, none, 21000, none, none, []⟩ : Tx).fields ++
            [.uint64 0, .bigInt (some 1), .bigInt (some 2)])) = 0x02 :: rest ∧
            decode rest = some (.list ((⟨1, 0, none, none, 21000, none, none, []⟩ : Tx).items ++
              [amount v.toNat, amount r, amount s])) := by
  obtain ⟨-, -, -, -, hdiffer, -, hsigned⟩ := encoding_canonical
  constructor
  · refine hdiffer _ _ ⟨le_rfl, le_rfl, le_rfl⟩ ⟨le_rfl, le_rfl, le_rfl⟩ (by decide +kernel) ?_
    intro hsame
    exact absurd hsame.nonce (by decide)
  · exact hsigned (fun _ => uint64Word 0) (fun _ => 27 :: (bigEndian 32 1 ++ bigEndian 32 2)) _ _
      rfl (by decide +kernel)

end SuperAgent.Chain
