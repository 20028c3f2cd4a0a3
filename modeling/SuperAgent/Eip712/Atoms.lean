import Mathlib.Data.Nat.Size
import SuperAgent.Eip712.Specification

/-!
# Values that are no struct

What becomes of a value is told by its type's name and the value: it is encoded,
it is refused, or encoding it panics. No value panics whose type is one of the
standard's own.
-/

namespace SuperAgent.Eip712

open Chain

/-- The values that are encoded. -/
def Kind.Accepts (memory : Memory) (v : Json) : Kind → Prop
  | .string => ∃ s, v = .string s
  | .bytes => ∃ b, hexBytes v = .ok b
  | .bool => ∃ b, v = .bool b
  | .address => ∃ b, hexBytes v = .ok b ∧ b.length = 20
  | .fixed n => (1 ≤ n ∧ n ≤ 32) ∧ ∃ b, hexBytes v = .ok b ∧ b.length = n.toInt
  | .uint bits => ∃ n, bigInt v = .ok n ∧ (0 ≤ n ∧ n.natAbs.size ≤ bits.toInt) ∧ n < 2 ^ 256
  | .int bits => ∃ n, bigInt v = .ok n ∧ limitShift bits ≤ memory.room ∧
      (-2 ^ limitShift bits ≤ n ∧ n < 2 ^ limitShift bits) ∧ (-2 ^ 257 < n ∧ n < 2 ^ 256)

/-- The values that are within a type's bounds and do not fit a word, and those of a type with
bounds too large to compute. -/
def Kind.Overflows (memory : Memory) (v : Json) : Kind → Prop
  | .uint bits => ∃ n, bigInt v = .ok n ∧ (0 ≤ n ∧ n.natAbs.size ≤ bits.toInt) ∧ 2 ^ 256 ≤ n
  | .int bits => ∃ n, bigInt v = .ok n ∧ (memory.room < limitShift bits ∨
      (-2 ^ limitShift bits ≤ n ∧ n < 2 ^ limitShift bits) ∧ (n ≤ -2 ^ 257 ∨ 2 ^ 256 ≤ n))
  | _ => False

/-- What an outcome says: done, refused with a fault, or a panic. -/
def Settles {α : Type} (accepted overflows : Prop) : Except Stop α → Prop
  | .ok _ => accepted
  | .error (.fault _) => ¬accepted ∧ ¬overflows
  | .error .panic => overflows

variable {α β ε : Type} {keccak : Hasher} {memory : Memory} {typ : String} {v : Json} {n : ℤ}
  {w : Bytes32}

/-! ## Numbers in words -/

theorem length_bytesOf_natAbs : (bytesOf n.natAbs).length ≤ 32 ↔ -2 ^ 256 < n ∧ n < 2 ^ 256 := by
  rw [length_bytesOf_le_iff]
  omega

theorem fillBytes_ok (h : -2 ^ 256 < n ∧ n < 2 ^ 256) :
    ∃ w, fillBytes n = .ok w ∧ w.toNat = n.natAbs := by
  have hfits := length_bytesOf_natAbs.mpr h
  refine ⟨rightAligned (bytesOf n.natAbs) hfits, dif_pos hfits, ?_⟩
  rw [toNat_rightAligned, ofBytes_bytesOf]

theorem fillBytes_panic (h : n ≤ -2 ^ 256 ∨ 2 ^ 256 ≤ n) : fillBytes n = .error .panic := by
  refine dif_neg fun hfits => ?_
  have hin := length_bytesOf_natAbs.mp hfits
  omega

theorem toNat_intWord : (intWord n).toNat = (n % 2 ^ 256).toNat := by
  have hlt : (n % 2 ^ 256).toNat < 256 ^ 32 := by omega
  rw [Bytes32.toNat, intWord, ofBytes_bigEndian, Nat.mod_eq_of_lt hlt]

theorem fillBytes_eq (hlo : 0 ≤ n) (hhi : n < 2 ^ 256) : fillBytes n = .ok (intWord n) := by
  obtain ⟨w, hw, hnat⟩ := fillBytes_ok (n := n) (by omega)
  rw [hw, toNat_inj (hnat.trans ?_)]
  rw [toNat_intWord, Int.emod_eq_of_lt hlo hhi]
  omega

/-- A negative number is `2 ^ 256` more in its word. -/
theorem fillBytes_add_eq (hlo : -2 ^ 256 ≤ n) (hhi : n < 0) :
    fillBytes (n + 2 ^ 256) = .ok (intWord n) := by
  rw [fillBytes_eq (by omega) (by omega)]
  refine congrArg _ (toNat_inj ?_)
  rw [toNat_intWord, toNat_intWord, Int.add_emod_right]

/-! ## What becomes of a value -/

/-- A value that is read, and settled when it could be. -/
theorem settles_read {r : Except Fault α} {f : α → Except Stop Bytes32} {p q : α → Prop}
    (h : ∀ a, Settles (p a) (q a) (f a)) :
    Settles (∃ a, r = .ok a ∧ p a) (∃ a, r = .ok a ∧ q a) (r.mapError .fault >>= f) := by
  cases r with
  | error e =>
    have hnone (p : α → Prop) : ¬∃ a, (Except.error e : Except Fault α) = .ok a ∧ p a := by simp
    exact ⟨hnone p, hnone q⟩
  | ok a =>
    have hone (p : α → Prop) : (∃ b, (Except.ok a : Except Fault α) = .ok b ∧ p b) ↔ p a := by simp
    rw [hone, hone]
    exact h a

theorem settles_fillBytes : Settles (-2 ^ 256 < n ∧ n < 2 ^ 256) (n ≤ -2 ^ 256 ∨ 2 ^ 256 ≤ n)
    (fillBytes n) := by
  by_cases h : -2 ^ 256 < n ∧ n < 2 ^ 256
  · obtain ⟨w, hw, -⟩ := fillBytes_ok h
    rw [hw]
    exact h
  · have hout : n ≤ -2 ^ 256 ∨ 2 ^ 256 ≤ n := by omega
    rw [fillBytes_panic hout]
    exact hout

theorem Settles.congr {accepted accepted' overflows overflows' : Prop}
    {r : Except Stop α} (h : Settles accepted overflows r) (haccepted : accepted ↔ accepted')
    (hoverflows : overflows ↔ overflows') : Settles accepted' overflows' r := by
  rw [← propext haccepted, ← propext hoverflows]
  exact h

/-- A value is encoded, refused or panics as its type's kind tells. -/
theorem Kind.encode_settles (kind : Kind) :
    Settles (kind.Accepts memory v) (kind.Overflows memory v)
      (kind.encode keccak memory typ v) := by
  cases kind with
  | string =>
    cases v with
    | string s => exact ⟨s, rfl⟩
    | _ => exact ⟨fun ⟨s, h⟩ => Json.noConfusion h, id⟩
  | bytes =>
    refine (settles_read (f := fun b => .ok (keccak b)) (p := fun _ => True) (q := fun _ => False)
      fun b => trivial).congr ?_ ?_
    · simp [Kind.Accepts]
    · simp [Kind.Overflows]
  | bool =>
    cases v with
    | bool b => exact ⟨b, rfl⟩
    | _ => exact ⟨fun ⟨s, h⟩ => Json.noConfusion h, id⟩
  | address =>
    refine (settles_read (p := fun b => b.length = 20) (q := fun _ => False)
      fun b => ?_).congr ?_ ?_
    · split
      · next h => exact h
      · next h => exact ⟨h, id⟩
    · simp [Kind.Accepts]
    · simp [Kind.Overflows]
  | fixed n =>
    rw [Kind.encode]
    by_cases hn : n < 1 ∨ n > 32
    · rw [if_pos hn]
      refine ⟨fun h => ?_, id⟩
      have hin := h.1
      grind
    · rw [if_neg hn]
      have hin : 1 ≤ n ∧ n ≤ 32 := by grind
      refine (settles_read (p := fun b => b.length = n.toInt) (q := fun _ => False)
        fun b => ?_).congr ?_ ?_
      · by_cases hlen : b.length = n.toInt
        · rw [if_neg (not_not.mpr hlen)]
          exact hlen
        · rw [if_pos hlen]
          exact ⟨hlen, id⟩
      · simp [Kind.Accepts, hin]
      · simp [Kind.Overflows]
  | uint bits =>
    refine settles_read fun n => ?_
    by_cases hin : 0 ≤ n ∧ n.natAbs.size ≤ bits.toInt
    · rw [if_neg (by omega)]
      refine settles_fillBytes.congr ?_ ?_
      · exact ⟨fun h => ⟨hin, h.2⟩, fun h => by omega⟩
      · exact ⟨fun h => ⟨hin, by omega⟩, fun h => .inr h.2⟩
    · rw [if_pos (by omega)]
      exact ⟨fun h => hin h.1, fun h => hin h.1⟩
  | int bits =>
    refine settles_read fun n => ?_
    by_cases hroom : memory.room < limitShift bits
    · rw [if_pos hroom]
      exact .inl hroom
    rw [if_neg hroom]
    by_cases hin : -2 ^ limitShift bits ≤ n ∧ n < 2 ^ limitShift bits
    · rw [if_neg (by omega)]
      by_cases hneg : n < 0
      · rw [if_pos hneg]
        refine settles_fillBytes.congr ?_ ?_
        · exact ⟨fun h => ⟨by omega, hin, by omega⟩, fun h => by omega⟩
        · exact ⟨fun h => .inr ⟨hin, by omega⟩, fun h => by omega⟩
      · rw [if_neg hneg]
        refine settles_fillBytes.congr ?_ ?_
        · exact ⟨fun h => ⟨by omega, hin, by omega⟩, fun h => by omega⟩
        · exact ⟨fun h => .inr ⟨hin, by omega⟩, fun h => by omega⟩
    · rw [if_pos (by omega)]
      exact ⟨fun h => hin h.2.1, fun h => h.elim hroom fun h => hin h.1⟩

/-! ## The standard's own types -/

/-- What the name of a type is taken for. -/
def Atom.kind : Atom → Kind
  | .string => .string
  | .bytes => .bytes
  | .bool => .bool
  | .address => .address
  | .fixed k => .fixed (.ofNat (k.val + 1))
  | .uint k => .uint (.ofNat (8 * (k.val + 1)))
  | .int k => .int (.ofNat (8 * (k.val + 1)))

/-- A width that is written out is read back. -/
theorem readType_name (atom : Atom) : readType atom.name = some atom.kind := by
  cases atom with
  | fixed k =>
    revert k
    decide +kernel
  | uint k =>
    revert k
    decide +kernel
  | int k =>
    revert k
    decide +kernel
  | _ => rfl

theorem toInt_bytes (k : Fin 32) : (Int64.ofNat (k.val + 1)).toInt = k.val + 1 := by
  revert k
  decide

theorem toInt_bits (k : Fin 32) : (Int64.ofNat (8 * (k.val + 1))).toInt = 8 * (k.val + 1) := by
  revert k
  decide

theorem Atom.kind_inj {atom other : Atom} (h : atom.kind = other.kind) : atom = other := by
  cases atom <;> cases other <;>
    simp only [Atom.kind, reduceCtorEq, Kind.fixed.injEq, Kind.uint.injEq, Kind.int.injEq] at h ⊢
  case fixed.fixed k j =>
    have hk := congrArg Int64.toInt h
    rw [toInt_bytes, toInt_bytes] at hk
    exact congrArg _ (Fin.ext (by omega))
  all_goals
    have hk := congrArg Int64.toInt h
    rw [toInt_bits, toInt_bits] at hk
    exact congrArg _ (Fin.ext (by omega))

theorem Atom.name_inj {atom other : Atom} (h : atom.name = other.name) : atom = other := by
  refine kind_inj (Option.some_injective _ ?_)
  rw [← readType_name, ← readType_name, h]

theorem Atom.name_of_ofName {atom : Atom} (h : Atom.ofName typ = some atom) : atom.name = typ := by
  rw [Atom.ofName] at h
  have hname := List.find?_some h
  exact of_decide_eq_true hname

/-- A type's name is its own. -/
theorem Atom.ofName_name (atom : Atom) : Atom.ofName atom.name = some atom := by
  have hsome : (Atom.ofName atom.name).isSome :=
    List.find?_isSome.mpr ⟨atom, atom.mem_all, decide_eq_true rfl⟩
  obtain ⟨other, hother⟩ := Option.isSome_iff_exists.mp hsome
  rw [hother, name_inj (name_of_ofName hother)]

theorem limitShift_bits (k : Fin 32) : limitShift (.ofNat (8 * (k.val + 1))) = 8 * k.val + 7 := by
  revert k
  decide

/-- No value of one of the standard's own types panics. -/
theorem Atom.not_overflows (atom : Atom) : ¬atom.kind.Overflows memory v := by
  cases atom with
  | uint k =>
    rintro ⟨n, -, ⟨hpos, hsize⟩, hbig⟩
    rw [toInt_bits] at hsize
    have hlt : n.natAbs < 2 ^ (8 * (k.val + 1)) := Nat.size_le.mp (by omega)
    have hle : 2 ^ (8 * (k.val + 1)) ≤ 2 ^ 256 := Nat.pow_le_pow_right (by decide) (by omega)
    omega
  | int k =>
    rintro ⟨n, -, h⟩
    have hroom := memory.fits_word
    have hle : (2 : ℤ) ^ (8 * k.val + 7) ≤ 2 ^ 255 := pow_le_pow_right₀ (by decide) (by omega)
    rw [limitShift_bits] at h
    rcases h with h | ⟨hin, hout⟩ <;> omega
  | _ => exact id

theorem eq_ok_of_bind {r : Except Stop α} {g : α → Except Stop β} {b : β}
    (h : r >>= g = .ok b) : ∃ a, r = .ok a ∧ g a = .ok b := by
  cases r with
  | error e => cases h
  | ok a => exact ⟨a, rfl, h⟩

theorem eq_ok_of_mapError {r : Except ε α} {within : ε → Stop} {a : α}
    (h : r.mapError within = .ok a) : r = .ok a := by
  cases r with
  | error e => cases h
  | ok b => exact congrArg _ (Except.ok.inj h)

theorem rightAligned_eq {bs : List UInt8} (h : bs.length ≤ 32) :
    rightAligned bs h = intWord (ofBytes bs) := by
  have hlt : ofBytes bs < 256 ^ 32 :=
    ofBytes_lt.trans_le (Nat.pow_le_pow_right (by decide) h)
  refine toNat_inj ?_
  rw [toNat_rightAligned, toNat_intWord]
  omega

/-- A value of one of the standard's own types that is encoded has the word it stands for. -/
theorem Atom.encode_eq {atom : Atom} (h : atom.kind.encode keccak memory typ v = .ok w) :
    atom.encode keccak v = some w := by
  cases atom with
  | string =>
    cases v with
    | string s => exact congrArg some (Except.ok.inj h)
    | _ => cases h
  | bytes =>
    obtain ⟨b, hb, hrest⟩ := eq_ok_of_bind h
    replace hb := eq_ok_of_mapError hb
    rw [Atom.encode, hb]
    exact congrArg some (Except.ok.inj hrest)
  | bool =>
    cases v with
    | bool b =>
      cases b <;> exact congrArg some (Except.ok.inj h)
    | _ => cases h
  | address =>
    obtain ⟨b, hb, hrest⟩ := eq_ok_of_bind h
    replace hb := eq_ok_of_mapError hb
    split at hrest
    · next hlen =>
      rw [Atom.encode, hb, ← Except.ok.inj hrest]
      exact (if_pos hlen).trans (congrArg some (rightAligned_eq _).symm)
    · cases hrest
  | fixed k =>
    have hwidth := toInt_bytes k
    rw [kind, Kind.encode] at h
    split at h
    · cases h
    obtain ⟨b, hb, hrest⟩ := eq_ok_of_bind h
    replace hb := eq_ok_of_mapError hb
    split at hrest
    · cases hrest
    · next hlen =>
      rw [Atom.encode, hb, ← Except.ok.inj hrest]
      exact if_pos (by omega)
  | uint k =>
    have hwidth := toInt_bits k
    obtain ⟨n, hn, hrest⟩ := eq_ok_of_bind h
    replace hn := eq_ok_of_mapError hn
    split at hrest
    · cases hrest
    · next hin =>
      obtain ⟨m, rfl⟩ := Int.eq_ofNat_of_zero_le (show 0 ≤ n by omega)
      rw [Int.natAbs_natCast] at hin
      have hlt : m < 2 ^ (8 * (k.val + 1)) := Nat.size_le.mp (by omega)
      have hle : 2 ^ (8 * (k.val + 1)) ≤ 2 ^ 256 := Nat.pow_le_pow_right (by decide) (by omega)
      rw [fillBytes_eq (by omega) (by omega)] at hrest
      rw [Atom.encode, hn, ← Except.ok.inj hrest]
      exact if_pos ⟨by omega, by exact_mod_cast hlt⟩
  | int k =>
    have hle : (2 : ℤ) ^ (8 * k.val + 7) ≤ 2 ^ 255 := pow_le_pow_right₀ (by decide) (by omega)
    obtain ⟨n, hn, hrest⟩ := eq_ok_of_bind h
    replace hn := eq_ok_of_mapError hn
    dsimp only at hrest
    rw [limitShift_bits] at hrest
    split at hrest
    · cases hrest
    split at hrest
    · cases hrest
    next hin =>
    have hword : Except.ok (intWord n) = (Except.ok w : Except Stop Bytes32) := by
      split at hrest
      · next hneg => rwa [fillBytes_add_eq (by omega) hneg] at hrest
      · next hpos => rwa [fillBytes_eq (by omega) (by omega)] at hrest
    rw [Atom.encode, hn, ← Except.ok.inj hword]
    exact if_pos (by omega)

end SuperAgent.Eip712
