import Mathlib.Data.Nat.Digits.Lemmas

/-!
# Numbers as bytes

Bytes with the most significant first: the number they stand for, the fewest
bytes a number needs, and a number in a given number of bytes. Zero needs none.
-/

namespace SuperAgent

/-- The number that bytes stand for. -/
def ofBytes (bs : List UInt8) : ℕ := Nat.ofDigits 256 (bs.reverse.map UInt8.toNat)

/-- The fewest bytes that stand for a number. -/
def bytesOf (n : ℕ) : List UInt8 := ((Nat.digits 256 n).map UInt8.ofNat).reverse

/-- The last bytes of a number, as many as are asked for. -/
def bigEndian : ℕ → ℕ → List UInt8
  | 0, _ => []
  | k + 1, n => bigEndian k (n / 256) ++ [UInt8.ofNat n]

/-- The bytes of a text. -/
def utf8 (s : String) : List UInt8 := s.toUTF8.data.toList

variable {bs cs : List UInt8} {b : UInt8} {k n : ℕ}

theorem utf8_append (s t : String) : utf8 (s ++ t) = utf8 s ++ utf8 t := by
  simp [utf8]

/-- The bytes of a text are those of its letters. -/
theorem utf8_ofList (l : List Char) : utf8 (String.ofList l) = l.flatMap String.utf8EncodeChar := by
  simp [utf8, List.utf8Encode]

@[simp] theorem ofBytes_nil : ofBytes [] = 0 := rfl

theorem ofBytes_append : ofBytes (bs ++ cs) = ofBytes bs * 256 ^ cs.length + ofBytes cs := by
  unfold ofBytes
  rw [List.reverse_append, List.map_append, Nat.ofDigits_append, List.length_map,
    List.length_reverse, Nat.add_comm, Nat.mul_comm]

theorem ofBytes_singleton : ofBytes [b] = b.toNat := Nat.ofDigits_singleton

theorem ofBytes_cons : ofBytes (b :: bs) = b.toNat * 256 ^ bs.length + ofBytes bs := by
  rw [← List.singleton_append, ofBytes_append, ofBytes_singleton]

theorem ofBytes_lt : ofBytes bs < 256 ^ bs.length := by
  have hlt : ∀ x ∈ bs.reverse.map UInt8.toNat, x < 256 := by
    intro x hx
    obtain ⟨b, -, rfl⟩ := List.mem_map.mp hx
    exact b.toNat_lt
  have hbound := Nat.ofDigits_lt_base_pow_length (by decide) hlt
  rwa [List.length_map, List.length_reverse] at hbound

theorem ofBytes_replicate_zero : ofBytes (List.replicate k 0) = 0 := by
  induction k with
  | zero => rfl
  | succ k ih =>
    rw [List.replicate_succ, ofBytes_cons, ih]
    simp

/-- Bytes of one length that stand for the same number are the same. -/
theorem eq_of_ofBytes_eq (hlen : bs.length = cs.length) (h : ofBytes bs = ofBytes cs) : bs = cs := by
  induction bs generalizing cs with
  | nil => exact (List.length_eq_zero_iff.mp hlen.symm).symm
  | cons b bs ih =>
    cases cs with
    | nil => cases hlen
    | cons c cs =>
      have htail : bs.length = cs.length := Nat.succ.inj hlen
      rw [ofBytes_cons, ofBytes_cons, htail] at h
      have hbs : ofBytes bs < 256 ^ cs.length := htail ▸ ofBytes_lt
      have hcs : ofBytes cs < 256 ^ cs.length := ofBytes_lt
      have hpos : 0 < 256 ^ cs.length := by positivity
      have hhead : b.toNat = c.toNat := by
        have hquot := congrArg (· / 256 ^ cs.length) h
        rwa [Nat.mul_comm, Nat.mul_add_div hpos, Nat.div_eq_of_lt hbs, Nat.mul_comm,
          Nat.mul_add_div hpos, Nat.div_eq_of_lt hcs] at hquot
      rw [hhead] at h
      rw [UInt8.toNat_inj.mp hhead, ih htail (Nat.add_left_cancel h)]

/-! ## The fewest bytes -/

theorem map_toNat_digits : (Nat.digits 256 n).map (UInt8.toNat ∘ UInt8.ofNat) = Nat.digits 256 n := by
  refine (List.map_congr_left fun d hd => ?_).trans (List.map_id _)
  exact UInt8.toNat_ofNat_of_lt' (Nat.digits_lt_base (by decide) hd)

@[simp] theorem bytesOf_zero : bytesOf 0 = [] := by
  rw [bytesOf, Nat.digits_zero]
  rfl

theorem ofBytes_bytesOf : ofBytes (bytesOf n) = n := by
  unfold ofBytes bytesOf
  rw [List.reverse_reverse, List.map_map, map_toNat_digits, Nat.ofDigits_digits]

theorem length_bytesOf_le_iff : (bytesOf n).length ≤ k ↔ n < 256 ^ k := by
  unfold bytesOf
  rw [List.length_reverse, List.length_map, Nat.digits_length_le_iff (by decide)]

/-- The fewest bytes do not begin with zero. -/
theorem head_bytesOf : (bytesOf n).head? ≠ some 0 := by
  intro h
  rcases Nat.eq_zero_or_pos n with rfl | hn
  · rw [bytesOf_zero] at h
    cases h
  have hne := Nat.digits_ne_nil_iff_ne_zero (b := 256).mpr hn.ne'
  have hlast := Nat.getLast_digit_ne_zero 256 hn.ne'
  have hlt := Nat.digits_lt_base (by decide) (List.getLast_mem hne)
  rw [bytesOf, List.head?_reverse, List.getLast?_map, List.getLast?_eq_some_getLast hne] at h
  have hzero := congrArg UInt8.toNat (Option.some.inj h)
  rw [UInt8.toNat_ofNat_of_lt' hlt] at hzero
  exact hlast hzero

/-- Bytes that do not begin with zero are the fewest for what they stand for. -/
theorem bytesOf_ofBytes (h : bs.head? ≠ some 0) : bytesOf (ofBytes bs) = bs := by
  have hlt : ∀ x ∈ bs.reverse.map UInt8.toNat, x < 256 := by
    intro x hx
    obtain ⟨b, -, rfl⟩ := List.mem_map.mp hx
    exact b.toNat_lt
  have hlast : ∀ hne : bs.reverse.map UInt8.toNat ≠ [],
      (bs.reverse.map UInt8.toNat).getLast hne ≠ 0 := by
    intro hne hzero
    have hbs : bs ≠ [] := by
      rintro rfl
      exact hne rfl
    rw [List.getLast_map, List.getLast_reverse] at hzero
    rw [List.head?_eq_some_head hbs] at h
    exact h (congrArg some (UInt8.toNat_inj.mp hzero))
  unfold bytesOf ofBytes
  rw [Nat.digits_ofDigits 256 (by decide) _ hlt hlast, List.map_map]
  have hid : UInt8.ofNat ∘ UInt8.toNat = id := funext fun b => UInt8.ofNat_toNat
  rw [hid, List.map_id, List.reverse_reverse]

/-! ## A given number of bytes -/

@[simp] theorem length_bigEndian : (bigEndian k n).length = k := by
  induction k generalizing n with
  | zero => rfl
  | succ k ih => rw [bigEndian, List.length_append, ih, List.length_singleton]

theorem ofBytes_bigEndian : ofBytes (bigEndian k n) = n % 256 ^ k := by
  induction k generalizing n with
  | zero => rw [bigEndian, pow_zero, Nat.mod_one, ofBytes_nil]
  | succ k ih =>
    rw [bigEndian, ofBytes_append, ih, ofBytes_singleton, List.length_singleton, pow_one,
      Nat.pow_succ', Nat.mod_mul, UInt8.toNat_ofNat']
    omega

theorem bigEndian_ofBytes (bs : List UInt8) : bigEndian bs.length (ofBytes bs) = bs := by
  refine eq_of_ofBytes_eq length_bigEndian ?_
  rw [ofBytes_bigEndian, Nat.mod_eq_of_lt ofBytes_lt]

/-- A number in at least as many bytes as it needs: the rest are zeros before it. -/
theorem bigEndian_eq (h : n < 256 ^ k) :
    bigEndian k n = List.replicate (k - (bytesOf n).length) 0 ++ bytesOf n := by
  have hlen := length_bytesOf_le_iff.mpr h
  refine eq_of_ofBytes_eq ?_ ?_
  · rw [length_bigEndian, List.length_append, List.length_replicate, Nat.sub_add_cancel hlen]
  · rw [ofBytes_bigEndian, Nat.mod_eq_of_lt h, ofBytes_append, ofBytes_replicate_zero, Nat.zero_mul,
      Nat.zero_add, ofBytes_bytesOf]

end SuperAgent
