import SuperAgent.Core.Bytes

/-!
# Recursive length prefixes

Strings of bytes and lists of items, each behind a header that says which of the
two it is and how long. What is read has to be written the shortest way: one
byte below `0x80` stands for itself, and a length takes no more bytes than it
needs.
-/

namespace SuperAgent.Rlp

/-- What is written: bytes, or a list of items. -/
inductive Item
  | bytes (bs : List UInt8)
  | list (items : List Item)

/-- A single byte that is its own header. -/
def IsSmall (bs : List UInt8) : Prop := bs.length = 1 ∧ bs.headD 0 < 0x80

instance (bs : List UInt8) : Decidable (IsSmall bs) :=
  inferInstanceAs (Decidable (_ ∧ _))

/-- The header before so many bytes. -/
def header (offset : UInt8) (n : ℕ) : List UInt8 :=
  if n < 56 then [offset + .ofNat n]
  else (offset + 55 + .ofNat (bytesOf n).length) :: bytesOf n

mutual

/-- An item as bytes. -/
def Item.encode : Item → List UInt8
  | .bytes bs => if IsSmall bs then bs else header 0x80 bs.length ++ bs
  | .list items => header 0xc0 (Item.encodeAll items).length ++ Item.encodeAll items

/-- Items one after the other. -/
def Item.encodeAll : List Item → List UInt8
  | [] => []
  | item :: items => item.encode ++ Item.encodeAll items

end

/-! ## Reading -/

/-- So many bytes, and those after them. -/
def chop (n : ℕ) (bs : List UInt8) : Option (List UInt8 × List UInt8) :=
  if n ≤ bs.length then some (bs.take n, bs.drop n) else none

/-- What is behind the first byte of a header, `n` above its offset, and what comes after it. -/
def payload (n : ℕ) (bs : List UInt8) : Option (List UInt8 × List UInt8) :=
  if n < 56 then chop n bs
  else do
    let (be, rest) ← chop (n - 55) bs
    if be.head? = some 0 ∨ ofBytes be < 56 then none else chop (ofBytes be) rest

mutual

/-- The first item, and what comes after it. -/
def decodeOne : ℕ → List UInt8 → Option (Item × List UInt8)
  | 0, _ => none
  | _ + 1, [] => none
  | fuel + 1, b :: bs =>
    if b.toNat < 0x80 then some (.bytes [b], bs)
    else if b.toNat < 0xc0 then do
      let (body, rest) ← payload (b.toNat - 0x80) bs
      if IsSmall body then none else some (.bytes body, rest)
    else do
      let (body, rest) ← payload (b.toNat - 0xc0) bs
      let items ← decodeAll fuel body
      some (.list items, rest)

/-- Every item there is. -/
def decodeAll : ℕ → List UInt8 → Option (List Item)
  | 0, _ => none
  | _ + 1, [] => some []
  | fuel + 1, b :: bs => do
    let (item, rest) ← decodeOne fuel (b :: bs)
    let items ← decodeAll fuel rest
    some (item :: items)

end

/-- The item that bytes are, if they are one. Each byte is looked at twice at most. -/
def decode (bs : List UInt8) : Option Item :=
  match decodeOne (2 * bs.length) bs with
  | some (item, []) => some item
  | _ => none

/-- What holds of the items of a list holds of the list. -/
@[elab_as_elim]
theorem Item.induction {motive : Item → Prop} (bytes : ∀ bs, motive (.bytes bs))
    (list : ∀ items, (∀ item ∈ items, motive item) → motive (.list items)) (item : Item) :
    motive item := by
  refine Item.rec (motive_1 := motive) (motive_2 := fun items => ∀ item ∈ items, motive item)
    bytes list ?_ ?_ item
  · intro item h
    cases h
  · intro head tail hhead htail item h
    rcases List.mem_cons.mp h with rfl | h
    · exact hhead
    · exact htail item h

variable {bs body rest : List UInt8} {b offset : UInt8} {n fuel : ℕ} {item : Item}
  {items : List Item}

/-! ## Headers -/

theorem chop_append : chop body.length (body ++ rest) = some (body, rest) := by
  rw [chop, if_pos (by rw [List.length_append]; omega), List.take_left, List.drop_left]

theorem eq_of_chop (h : chop n bs = some (body, rest)) : bs = body ++ rest ∧ body.length = n := by
  unfold chop at h
  split at h
  · next hle =>
    cases h
    exact ⟨(List.take_append_drop n bs).symm, List.length_take_of_le hle⟩
  · cases h

theorem toNat_add_ofNat (h : offset.toNat + n < 256) : (offset + .ofNat n).toNat = offset.toNat + n := by
  rw [UInt8.toNat_add, UInt8.toNat_ofNat']
  omega

/-- A header's first byte says how far its payload goes. -/
theorem exists_header (offset : UInt8) (body : List UInt8) (hoffset : offset.toNat + 64 ≤ 256) (hsize : body.length < 2 ^ 64) :
    ∃ (k : ℕ) (b : UInt8) (be : List UInt8), k < 64 ∧ b.toNat = offset.toNat + k ∧
      header offset body.length = b :: be ∧
      ∀ rest, payload k (be ++ (body ++ rest)) = some (body, rest) := by
  unfold header
  split
  · next hshort =>
    refine ⟨body.length, _, [], by omega, toNat_add_ofNat (by omega), rfl, fun rest => ?_⟩
    rw [payload, if_pos hshort, List.nil_append, chop_append]
  · next hlong =>
    have hlen : (bytesOf body.length).length ≤ 8 := length_bytesOf_le_iff.mpr hsize
    have hpos : ¬(bytesOf body.length).length ≤ 0 := by
      rw [length_bytesOf_le_iff, pow_zero]
      omega
    have hfirst : (offset + 55 + .ofNat (bytesOf body.length).length).toNat =
        offset.toNat + (55 + (bytesOf body.length).length) := by
      have h55 : (offset + 55).toNat = offset.toNat + 55 := toNat_add_ofNat (n := 55) (by omega)
      rw [toNat_add_ofNat (by omega), h55, Nat.add_assoc]
    refine ⟨55 + (bytesOf body.length).length, _, _, by omega, hfirst, rfl, fun rest => ?_⟩
    have hminimal : ¬((bytesOf body.length).head? = some 0 ∨
        ofBytes (bytesOf body.length) < 56) := by
      rw [ofBytes_bytesOf]
      exact not_or.mpr ⟨head_bytesOf, hlong⟩
    rw [payload, if_neg (by omega), Nat.add_sub_cancel_left, chop_append]
    simp only [Option.bind_eq_bind, Option.bind_some, if_neg hminimal]
    rw [ofBytes_bytesOf, chop_append]

theorem eq_add_of_toNat (h : b.toNat = offset.toNat + n) : b = offset + .ofNat n := by
  have hlt : b.toNat < 256 := b.toNat_lt
  refine UInt8.toNat_inj.mp ?_
  rw [toNat_add_ofNat (by omega), h]

/-- What is read behind a header's first byte was written with that header. -/
theorem eq_of_payload (hb : b.toNat = offset.toNat + n) (h : payload n bs = some (body, rest)) :
    b :: bs = header offset body.length ++ body ++ rest := by
  unfold payload at h
  split at h
  · next hshort =>
    obtain ⟨rfl, hlen⟩ := eq_of_chop h
    rw [header, hlen, if_pos hshort, ← eq_add_of_toNat hb]
    rfl
  · next hlong =>
    obtain ⟨⟨be, after⟩, hbe, hbody⟩ := Option.bind_eq_some_iff.mp h
    obtain ⟨rfl, hlen⟩ := eq_of_chop hbe
    dsimp only at hbody
    split at hbody
    · cases hbody
    · next hminimal =>
      obtain ⟨hhead, hbig⟩ := not_or.mp hminimal
      obtain ⟨rfl, hlength⟩ := eq_of_chop hbody
      have hfirst : offset + 55 + .ofNat be.length = b := by
        have hlt : b.toNat < 256 := b.toNat_lt
        have h55 : (offset + 55).toNat = offset.toNat + 55 := toNat_add_ofNat (n := 55) (by omega)
        exact (eq_add_of_toNat (by rw [h55, hb, hlen]; omega)).symm
      rw [header, hlength, if_neg hbig, bytesOf_ofBytes hhead, hfirst, List.append_assoc]
      rfl

/-! ## Round trips -/

theorem isSmall_iff : IsSmall bs ↔ ∃ b : UInt8, bs = [b] ∧ b.toNat < 0x80 := by
  constructor
  · rintro ⟨hlen, hlt⟩
    obtain ⟨b, rfl⟩ := List.length_eq_one_iff.mp hlen
    exact ⟨b, rfl, UInt8.lt_iff_toNat_lt.mp hlt⟩
  · rintro ⟨b, rfl, hlt⟩
    exact ⟨rfl, UInt8.lt_iff_toNat_lt.mpr hlt⟩

theorem encode_bytes_small (h : IsSmall bs) : Item.encode (.bytes bs) = bs := by
  rw [Item.encode, if_pos h]

theorem encode_bytes (h : ¬IsSmall bs) :
    Item.encode (.bytes bs) = header 0x80 bs.length ++ bs := by
  rw [Item.encode, if_neg h]

theorem header_ne_nil : header offset n ≠ [] := by
  unfold header
  split <;> exact List.cons_ne_nil _ _

theorem encode_pos (item : Item) : 0 < item.encode.length := by
  refine List.length_pos_iff.mpr fun h => ?_
  cases item with
  | bytes bs =>
    by_cases hsmall : IsSmall bs
    · rw [encode_bytes_small hsmall] at h
      rw [h] at hsmall
      cases hsmall.1
    · rw [encode_bytes hsmall] at h
      exact header_ne_nil (List.append_eq_nil_iff.mp h).1
  | list items =>
    rw [Item.encode] at h
    exact header_ne_nil (List.append_eq_nil_iff.mp h).1

/-- An item is read back from what is written of it, whatever comes after. -/
def ReadsBack (item : Item) : Prop :=
  ∀ fuel rest, item.encode.length < 2 ^ 64 → 2 * item.encode.length ≤ fuel →
    decodeOne fuel (item.encode ++ rest) = some (item, rest)

theorem readsBack_bytes : ReadsBack (.bytes bs) := by
  intro fuel rest hsize hfuel
  have hpos := encode_pos (.bytes bs)
  obtain ⟨fuel, rfl⟩ : ∃ f, fuel = f + 1 := ⟨fuel - 1, by omega⟩
  by_cases hsmall : IsSmall bs
  · obtain ⟨b, rfl, hb⟩ := isSmall_iff.mp hsmall
    rw [encode_bytes_small hsmall, List.singleton_append, decodeOne, if_pos hb]
  · rw [encode_bytes hsmall] at hsize ⊢
    rw [List.length_append] at hsize
    obtain ⟨k, b, be, hk, hb, hheader, hpayload⟩ :=
      exists_header 0x80 bs (by decide) (by omega)
    have h80 : (0x80 : UInt8).toNat = 0x80 := rfl
    rw [h80] at hb
    rw [hheader, List.append_assoc, List.cons_append, decodeOne, if_neg (by omega), if_pos (by omega), hb,
      Nat.add_sub_cancel_left, hpayload]
    simp only [Option.bind_eq_bind, Option.bind_some, if_neg hsmall]

theorem decodeAll_encodeAll (h : ∀ item ∈ items, ReadsBack item)
    (hsize : (Item.encodeAll items).length < 2 ^ 64)
    (hfuel : 2 * (Item.encodeAll items).length + 1 ≤ fuel) :
    decodeAll fuel (Item.encodeAll items) = some items := by
  induction items generalizing fuel with
  | nil =>
    obtain ⟨fuel, rfl⟩ : ∃ f, fuel = f + 1 := ⟨fuel - 1, by omega⟩
    rw [Item.encodeAll, decodeAll]
  | cons item items ih =>
    obtain ⟨fuel, rfl⟩ : ∃ f, fuel = f + 1 := ⟨fuel - 1, by omega⟩
    have hpos := encode_pos item
    rw [Item.encodeAll, List.length_append] at hsize hfuel
    have hhead := h item List.mem_cons_self fuel (Item.encodeAll items) (by omega) (by omega)
    have htail := ih (fun i hi => h i (List.mem_cons_of_mem item hi)) (by omega)
      (show _ ≤ fuel by omega)
    obtain ⟨b, bs, hcons⟩ := List.exists_cons_of_length_pos hpos
    rw [hcons, List.cons_append] at hhead
    rw [Item.encodeAll, hcons, List.cons_append, decodeAll, hhead, Option.bind_eq_bind, Option.bind_some]
    simp only [htail]
    rfl

theorem readsBack (item : Item) : ReadsBack item := by
  induction item using Item.induction with
  | bytes bs => exact readsBack_bytes
  | list items ih =>
    intro fuel rest hsize hfuel
    have hpos := encode_pos (.list items)
    obtain ⟨fuel, rfl⟩ : ∃ f, fuel = f + 1 := ⟨fuel - 1, by omega⟩
    have hhead : 0 < (header 0xc0 (Item.encodeAll items).length).length :=
      List.length_pos_iff.mpr header_ne_nil
    rw [Item.encode, List.length_append] at hsize hfuel
    have hall := decodeAll_encodeAll ih (by omega) (show _ ≤ fuel by omega)
    obtain ⟨k, b, be, hk, hb, hheader, hpayload⟩ :=
      exists_header 0xc0 (Item.encodeAll items) (by decide) (by omega)
    have hc0 : (0xc0 : UInt8).toNat = 0xc0 := rfl
    rw [hc0] at hb
    rw [Item.encode, hheader, List.append_assoc, List.cons_append, decodeOne, if_neg (by omega),
      if_neg (by omega), hb, Nat.add_sub_cancel_left, hpayload, Option.bind_eq_bind, Option.bind_some]
    simp only [hall]
    rfl

/-- An item is what its bytes are. -/
theorem decode_encode (hsize : item.encode.length < 2 ^ 64) : decode item.encode = some item := by
  have hone := readsBack item (2 * item.encode.length) [] hsize le_rfl
  rw [List.append_nil] at hone
  rw [decode, hone]

/-- What is read has been written the one way there is. -/
theorem eq_encode_of_fuel (fuel : ℕ) :
    (∀ bs item rest, decodeOne fuel bs = some (item, rest) → bs = item.encode ++ rest) ∧
      ∀ bs items, decodeAll fuel bs = some items → bs = Item.encodeAll items := by
  induction fuel with
  | zero =>
    constructor
    · intro bs item rest h
      cases h
    · intro bs items h
      cases h
  | succ fuel ih =>
    obtain ⟨ihone, ihall⟩ := ih
    constructor
    · intro bs item rest h
      cases bs with
      | nil => cases h
      | cons b bs =>
        rw [decodeOne] at h
        split at h
        · next hb =>
          cases h
          rw [encode_bytes_small (isSmall_iff.mpr ⟨b, rfl, hb⟩), List.singleton_append]
        split at h
        · next hb _ =>
          obtain ⟨⟨body, after⟩, hpayload, hitem⟩ := Option.bind_eq_some_iff.mp h
          dsimp only at hitem
          split at hitem
          · cases hitem
          · next hsmall =>
            cases hitem
            rw [encode_bytes hsmall]
            exact eq_of_payload (Nat.add_sub_of_le (Nat.le_of_not_lt hb)).symm hpayload
        · next _ hc =>
          obtain ⟨⟨body, after⟩, hpayload, hitem⟩ := Option.bind_eq_some_iff.mp h
          obtain ⟨items, hitems, hitem⟩ := Option.bind_eq_some_iff.mp hitem
          cases hitem
          rw [Item.encode, ← ihall body items hitems]
          exact eq_of_payload (Nat.add_sub_of_le (Nat.le_of_not_lt hc)).symm hpayload
    · intro bs items h
      cases bs with
      | nil =>
        cases h
        rfl
      | cons b bs =>
        rw [decodeAll] at h
        obtain ⟨⟨item, after⟩, hone, hrest⟩ := Option.bind_eq_some_iff.mp h
        obtain ⟨tail, hall, hitems⟩ := Option.bind_eq_some_iff.mp hrest
        cases hitems
        rw [Item.encodeAll, ← ihall after tail hall]
        exact ihone (b :: bs) item after hone

theorem encode_of_decode (h : decode bs = some item) : item.encode = bs := by
  unfold decode at h
  split at h
  · next i hone =>
    cases h
    rw [(eq_encode_of_fuel _).1 _ _ _ hone, List.append_nil]
  · cases h

/-- Two items are never written the same. -/
theorem encode_inj {other : Item} (hsize : item.encode.length < 2 ^ 64)
    (h : item.encode = other.encode) : item = other := by
  have hdecode := decode_encode hsize
  rw [h, decode_encode (h ▸ hsize)] at hdecode
  exact (Option.some.inj hdecode).symm

end SuperAgent.Rlp
