import Mathlib.Algebra.BigOperators.Fin
import Mathlib.Algebra.Order.BigOperators.Group.Finset
import Mathlib.Data.Fintype.EquivFin
import Mathlib.Data.Finite.Defs

/-!
# Checked words and sums of mappings

Unsigned words with the arithmetic that refuses to wrap, the partial results
such arithmetic is run in, and how the sum of a mapping moves when one of its
entries does.
-/

namespace SuperAgent

section Except

universe v

variable {ε : Type*} {α β : Type v}

/-- A sequence of fallible steps succeeds exactly when each of its steps does. -/
theorem bind_eq_ok {x : Except ε α} {f : α → Except ε β} {r : β} :
    x >>= f = .ok r ↔ ∃ a, x = .ok a ∧ f a = .ok r := by
  cases x with
  | error e => exact ⟨nofun, nofun⟩
  | ok a => exact ⟨fun h => ⟨a, rfl, h⟩, fun ⟨b, hb, h⟩ => by cases hb; exact h⟩

/-- A sequence of fallible steps fails exactly when one of its steps does. -/
theorem bind_eq_error {x : Except ε α} {f : α → Except ε β} {e : ε} :
    x >>= f = .error e ↔ x = .error e ∨ ∃ a, x = .ok a ∧ f a = .error e := by
  cases x with
  | error d => exact ⟨fun h => .inl (congrArg _ (Except.error.inj h)), fun h => by
      rcases h with h | ⟨a, h, -⟩
      · exact congrArg _ (Except.error.inj h)
      · cases h⟩
  | ok a => exact ⟨fun h => .inr ⟨a, rfl, h⟩, fun h => by
      rcases h with h | ⟨b, hb, h⟩
      · cases h
      · cases hb
        exact h⟩

/-- Where each element is known to be converted, the list is, element by element. -/
theorem mapM_eq_ok_map {f : α → Except ε β} {g : α → β} {xs : List α}
    (h : ∀ x ∈ xs, f x = .ok (g x)) : xs.mapM f = .ok (xs.map g) := by
  induction xs with
  | nil => rfl
  | cons x xs ih =>
    rw [List.mapM_cons, h x List.mem_cons_self, ih fun y hy => h y (List.mem_cons_of_mem x hy)]
    rfl

/-- Where a list is converted, each of its elements is. -/
theorem exists_of_mapM_eq_ok {f : α → Except ε β} {xs : List α} {ys : List β}
    (h : xs.mapM f = .ok ys) : ∀ x ∈ xs, ∃ y, f x = .ok y := by
  induction xs generalizing ys with
  | nil => exact fun x hx => by cases hx
  | cons x xs ih =>
    simp only [List.mapM_cons, bind_eq_ok] at h
    obtain ⟨y, hx, rest, hrest, -⟩ := h
    exact List.forall_mem_cons.mpr ⟨⟨y, hx⟩, ih hrest⟩

/-- A list is converted exactly when each of its elements is, and then element by element. -/
theorem mapM_eq_ok_iff {f : α → Except ε β} {p : α → Prop} {g : α → β}
    (hf : ∀ x y, f x = .ok y ↔ p x ∧ y = g x) {xs : List α} {ys : List β} :
    xs.mapM f = .ok ys ↔ (∀ x ∈ xs, p x) ∧ ys = xs.map g := by
  induction xs generalizing ys with
  | nil =>
    rw [List.mapM_nil]
    exact ⟨fun h => ⟨nofun, (Except.ok.inj h).symm⟩, fun h => congrArg _ h.2.symm⟩
  | cons x xs ih =>
    simp only [List.mapM_cons, bind_eq_ok, hf, ih, List.forall_mem_cons, List.map_cons]
    constructor
    · rintro ⟨y, ⟨hx, rfl⟩, ys', ⟨hxs, rfl⟩, h⟩
      exact ⟨⟨hx, hxs⟩, (Except.ok.inj h).symm⟩
    · rintro ⟨⟨hx, hxs⟩, rfl⟩
      exact ⟨_, ⟨hx, rfl⟩, _, ⟨hxs, rfl⟩, rfl⟩

theorem toOption_eq_some {x : Except ε α} {a : α} : x.toOption = some a ↔ x = .ok a := by
  cases x with
  | error e => exact ⟨nofun, nofun⟩
  | ok b => exact ⟨fun h => congrArg _ (Option.some.inj h), fun h => by cases h; rfl⟩

/-- Fail with `e` when the condition holds. -/
def revertIf (c : Prop) [Decidable c] (e : ε) : Except ε Unit := if c then .error e else .ok ()

@[simp] theorem revertIf_eq_ok {c : Prop} [Decidable c] {e : ε} {u : Unit} :
    revertIf c e = .ok u ↔ ¬ c := by
  unfold revertIf
  split <;> simp_all

@[simp] theorem revertIf_eq_error {c : Prop} [Decidable c] {e e' : ε} :
    revertIf c e = .error e' ↔ c ∧ e = e' := by
  unfold revertIf
  split <;> simp_all

/-- Read an optional result, failing with `e` when there is none. -/
def orRevert (e : ε) : Option α → Except ε α
  | some a => .ok a
  | none => .error e

@[simp] theorem orRevert_eq_ok {e : ε} {x : Option α} {a : α} :
    orRevert e x = .ok a ↔ x = some a := by
  cases x <;> simp [orRevert]

@[simp] theorem orRevert_eq_error {e e' : ε} {x : Option α} :
    orRevert e x = .error e' ↔ x = none ∧ e = e' := by
  cases x <;> simp [orRevert]

end Except

section Word

variable {w : Nat} {a b c : BitVec w}

/-- Addition, unless it would leave the width. -/
def checkedAdd (a b : BitVec w) : Option (BitVec w) :=
  if a.toNat + b.toNat < 2 ^ w then some (a + b) else none

/-- Subtraction, unless it would go below zero. -/
def checkedSub (a b : BitVec w) : Option (BitVec w) :=
  if b.toNat ≤ a.toNat then some (a - b) else none

/-- Multiplication, unless it would leave the width. -/
def checkedMul (a b : BitVec w) : Option (BitVec w) :=
  if a.toNat * b.toNat < 2 ^ w then some (a * b) else none

/-- A checked sum is the sum of the values. -/
theorem checkedAdd_eq_some : checkedAdd a b = some c ↔ a.toNat + b.toNat = c.toNat := by
  unfold checkedAdd
  constructor
  · intro h
    split at h
    · next hlt => rw [← Option.some.inj h, BitVec.toNat_add_of_lt hlt]
    · exact absurd h nofun
  · intro h
    have hlt : a.toNat + b.toNat < 2 ^ w := h ▸ c.isLt
    rw [if_pos hlt, Option.some.injEq, ← BitVec.toNat_inj, BitVec.toNat_add_of_lt hlt, h]

/-- A checked difference is the difference of the values. -/
theorem checkedSub_eq_some : checkedSub a b = some c ↔ b.toNat + c.toNat = a.toNat := by
  unfold checkedSub
  constructor
  · intro h
    split at h
    · next hle =>
      rw [← Option.some.inj h, BitVec.toNat_sub_of_le hle]
      omega
    · exact absurd h nofun
  · intro h
    have hle : b.toNat ≤ a.toNat := by omega
    rw [if_pos hle, Option.some.injEq, ← BitVec.toNat_inj, BitVec.toNat_sub_of_le hle]
    omega

/-- A checked product is the product of the values. -/
theorem checkedMul_eq_some : checkedMul a b = some c ↔ a.toNat * b.toNat = c.toNat := by
  unfold checkedMul
  constructor
  · intro h
    split at h
    · next hlt => rw [← Option.some.inj h, BitVec.toNat_mul, Nat.mod_eq_of_lt hlt]
    · exact absurd h nofun
  · intro h
    have hlt : a.toNat * b.toNat < 2 ^ w := h ▸ c.isLt
    rw [if_pos hlt, Option.some.injEq, ← BitVec.toNat_inj, BitVec.toNat_mul,
      Nat.mod_eq_of_lt hlt, h]

/-- A difference that does not go below zero is computed. -/
theorem exists_checkedSub (h : b ≤ a) : ∃ c, checkedSub a b = some c :=
  ⟨a - b, if_pos (BitVec.le_def.mp h)⟩

/-- There are finitely many words of a width. They are only summed over, never listed. -/
noncomputable instance fintypeWord : Fintype (BitVec w) :=
  @Fintype.ofFinite _ (Finite.of_injective BitVec.toFin fun _ _ h => BitVec.eq_of_toFin_eq h)

end Word

section Sum

variable {κ : Type*} [Fintype κ] [DecidableEq κ] {f g : κ → ℕ}

/-- A mapping changed at one key has the old sum, less the old entry, plus the new one. -/
theorem sum_change (k : κ) (h : ∀ j, j ≠ k → g j = f j) :
    ∑ j, g j + f k = ∑ j, f j + g k := by
  rw [Fintype.sum_eq_add_sum_compl k g, Fintype.sum_eq_add_sum_compl k f]
  have hrest : ∑ j ∈ {k}ᶜ, g j = ∑ j ∈ {k}ᶜ, f j :=
    Finset.sum_congr rfl fun j hj => h j (by simpa using hj)
  omega

/-- A mapping changed at two different keys. -/
theorem sum_change₂ {k l : κ} (hne : k ≠ l) (h : ∀ j, j ≠ k → j ≠ l → g j = f j) :
    ∑ j, g j + f k + f l = ∑ j, f j + g k + g l := by
  have hmid : ∑ j, Function.update f k (g k) j + f k = ∑ j, f j + g k := by
    simpa using sum_change (f := f) k fun j hj => Function.update_of_ne hj (g k) f
  have hend : ∑ j, g j + f l = ∑ j, Function.update f k (g k) j + g l := by
    have := sum_change (f := Function.update f k (g k)) (g := g) l fun j hj => by
      by_cases hjk : j = k
      · rw [hjk, Function.update_self]
      · rw [Function.update_of_ne hjk, h j hjk hj]
    rwa [Function.update_of_ne hne.symm] at this
  omega

end Sum

end SuperAgent
