import Mathlib.Data.List.Basic

/-!
# Base64 without padding

Bytes written in the alphabet that addresses can carry, three of them in four
letters, and read back. Line ends are skipped, and bits that fill no byte are not
looked at.
-/

namespace SuperAgent.Base64

/-- The alphabet, by what its letters stand for. -/
def encodeURL : List Char :=
  "ABCDEFGHIJKLMNOPQRSTUVWXYZabcdefghijklmnopqrstuvwxyz0123456789-_".toList

/-- The letter of six bits. -/
def letter (n : Nat) : Char := encodeURL.getD n 'A'

/-- What a letter stands for. -/
def sextet (c : Char) : Option Nat := encodeURL.idxOf? c

/-- Bytes cut into six bits each, the last ones filled up. -/
def sextets : List UInt8 → List Nat
  | a :: b :: c :: rest =>
    let n := a.toNat * 65536 + b.toNat * 256 + c.toNat
    n / 262144 % 64 :: n / 4096 % 64 :: n / 64 % 64 :: n % 64 :: sextets rest
  | [a, b] =>
    let n := a.toNat * 65536 + b.toNat * 256
    [n / 262144 % 64, n / 4096 % 64, n / 64 % 64]
  | [a] =>
    let n := a.toNat * 65536
    [n / 262144 % 64, n / 4096 % 64]
  | [] => []

/-- Bytes joined again from six bits each. Six bits alone hold no byte. -/
def join : List Nat → Option (List UInt8)
  | s :: t :: u :: v :: rest =>
    let n := s * 262144 + t * 4096 + u * 64 + v
    (join rest).map fun bs => .ofNat (n / 65536) :: .ofNat (n / 256) :: .ofNat n :: bs
  | [s, t, u] =>
    let n := s * 262144 + t * 4096 + u * 64
    some [.ofNat (n / 65536), .ofNat (n / 256)]
  | [s, t] =>
    let n := s * 262144 + t * 4096
    some [.ofNat (n / 65536)]
  | [_] => none
  | [] => some []

/-- Bytes as text. -/
def encode (bs : List UInt8) : List Char := (sextets bs).map letter

/-- Text as bytes, where it is such. -/
def decode (cs : List Char) : Option (List UInt8) :=
  ((cs.filter fun c => c.toNat ≠ 10 ∧ c.toNat ≠ 13).mapM sextet).bind join

/-! ## What is written is read back -/

/-- A letter stands for the bits it was chosen for, and ends no line. -/
theorem sextet_letter : ∀ n < 64, sextet (letter n) = some n ∧
    (letter n).toNat ≠ 10 ∧ (letter n).toNat ≠ 13 := by decide +kernel

theorem lt_of_mem_sextets {n : Nat} (bs : List UInt8) (hn : n ∈ sextets bs) : n < 64 := by
  fun_induction sextets bs with
  | case1 a b c rest m ih =>
    simp only [List.mem_cons] at hn
    rcases hn with rfl | rfl | rfl | rfl | hn
    any_goals exact Nat.mod_lt _ (by decide)
    exact ih hn
  | case2 a b m =>
    simp only [List.mem_cons, List.not_mem_nil, or_false] at hn
    rcases hn with rfl | rfl | rfl <;> exact Nat.mod_lt _ (by decide)
  | case3 a m =>
    simp only [List.mem_cons, List.not_mem_nil, or_false] at hn
    rcases hn with rfl | rfl <;> exact Nat.mod_lt _ (by decide)
  | case4 => cases hn

/-- A byte is what its value says, whatever is above it. -/
theorem ofNat_eq {a : UInt8} {n : Nat} (h : n % 256 = a.toNat) : UInt8.ofNat n = a := by
  rw [← UInt8.toNat_inj, UInt8.toNat_ofNat']
  exact h

/-- Bytes that are cut are joined as they were. -/
theorem join_sextets (bs : List UInt8) : join (sextets bs) = some bs := by
  fun_induction sextets bs with
  | case1 a b c rest n ih =>
    have ha := a.toNat_lt
    have hb := b.toNat_lt
    have hc := c.toNat_lt
    rw [join, ih, Option.map_some, ofNat_eq (a := a) (by omega), ofNat_eq (a := b) (by omega),
      ofNat_eq (a := c) (by omega)]
  | case2 a b n =>
    have ha := a.toNat_lt
    have hb := b.toNat_lt
    rw [join, ofNat_eq (a := a) (by omega), ofNat_eq (a := b) (by omega)]
  | case3 a n =>
    have ha := a.toNat_lt
    rw [join, ofNat_eq (a := a) (by omega)]
  | case4 => rfl

/-- Letters are read as the bits they were chosen for. -/
theorem mapM_sextet {ns : List Nat} (h : ∀ n ∈ ns, n < 64) :
    (ns.map letter).mapM sextet = some ns := by
  induction ns with
  | nil => rfl
  | cons n ns ih =>
    rw [List.map_cons, List.mapM_cons, (sextet_letter n (h n List.mem_cons_self)).1,
      ih fun m hm => h m (List.mem_cons_of_mem _ hm)]
    rfl

/-- Bytes are read back from their text. -/
theorem decode_encode (bs : List UInt8) : decode (encode bs) = some bs := by
  have hkeep : (encode bs).filter (fun c => c.toNat ≠ 10 ∧ c.toNat ≠ 13) = encode bs := by
    refine List.filter_eq_self.mpr fun c hc => ?_
    obtain ⟨n, hn, rfl⟩ := List.mem_map.mp hc
    exact decide_eq_true (sextet_letter n (lt_of_mem_sextets bs hn)).2
  rw [decode, hkeep, encode, mapM_sextet fun n => lt_of_mem_sextets bs]
  exact join_sextets bs

/-- Only no bytes are written as no text. -/
theorem encode_ne_nil {bs : List UInt8} (h : bs ≠ []) : encode bs ≠ [] := by
  intro hnil
  have hback := decode_encode bs
  rw [hnil] at hback
  exact h (Option.some.inj hback).symm

end SuperAgent.Base64
