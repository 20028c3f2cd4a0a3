import Mathlib.Logic.Function.Basic
import Mathlib.Data.Nat.Notation

/-!
# Generations

Items kept under a key, each stamped with the generation of the key it was made
for. As long as a key enters its next generation only when nothing is kept
under it, every item found under a key is of the key's present generation.
-/

namespace SuperAgent

variable {ι κ β γ : Type*} {stamp : β → ℕ} {gen : κ → ℕ} {m m' : κ → Option β}
  {l : List (κ × ℕ)} {k : κ} {v : β} {n : ℕ}

/-- Every item kept under a key has the key's generation. -/
def Current (stamp : β → ℕ) (gen : κ → ℕ) (m : κ → Option β) : Prop :=
  ∀ k v, m k = some v → stamp v = gen k

/-- Every listed stamp is its key's generation. -/
def Stamped (gen : κ → ℕ) (l : List (κ × ℕ)) : Prop := ∀ p ∈ l, p.2 = gen p.1

theorem Stamped.nil : Stamped gen [] := nofun

theorem Stamped.cons {p : κ × ℕ} (hp : p.2 = gen p.1) (h : Stamped gen l) :
    Stamped gen (p :: l) := List.forall_mem_cons.mpr ⟨hp, h⟩

theorem Stamped.head {p : κ × ℕ} (h : Stamped gen (p :: l)) : p.2 = gen p.1 :=
  h p List.mem_cons_self

theorem Stamped.tail {p : κ × ℕ} (h : Stamped gen (p :: l)) : Stamped gen l :=
  fun q hq => h q (List.mem_cons_of_mem p hq)

/-- What a kept item is stamped through carries the generation as well. -/
theorem Current.of_map {f : β → γ} {s : γ → ℕ} {c : γ} (h : Current (s ∘ f) gen m)
    (hc : (m k).map f = some c) : s c = gen k := by
  obtain ⟨v, hv, rfl⟩ := Option.map_eq_some_iff.mp hc
  exact h k v hv

/-- One of several keeps may be replaced. -/
theorem Current.replace [DecidableEq ι] {keeps : ι → κ → Option β} {i j : ι}
    (h : Current stamp gen (keeps j)) (h' : j = i → Current stamp gen m') :
    Current stamp gen (Function.update keeps i m' j) := by
  by_cases hj : j = i
  · subst hj
    rw [Function.update_self]
    exact h' rfl
  · rwa [Function.update_of_ne hj]

section

variable [DecidableEq κ]

/-- Keeping an item of the present generation. -/
theorem Current.keep (h : Current stamp gen m) (hv : stamp v = gen k) :
    Current stamp gen (Function.update m k (some v)) := by
  intro j w hw
  by_cases hj : j = k
  · subst hj
    rw [Function.update_self] at hw
    rw [← Option.some.inj hw, hv]
  · exact h j w (by rwa [Function.update_of_ne hj] at hw)

/-- Forgetting what is kept under a key. -/
theorem Current.forget (h : Current stamp gen m) :
    Current stamp gen (Function.update m k none) := by
  intro j w hw
  by_cases hj : j = k
  · subst hj
    rw [Function.update_self] at hw
    cases hw
  · exact h j w (by rwa [Function.update_of_ne hj] at hw)

/-- A key enters another generation exactly when nothing is kept under it. -/
theorem Current.renew_iff (h : Current stamp gen m) (hn : n ≠ gen k) :
    Current stamp (Function.update gen k n) m ↔ m k = none := by
  constructor
  · intro h'
    rw [Option.eq_none_iff_forall_ne_some]
    intro v hv
    have hnew := h' k v hv
    rw [Function.update_self, h k v hv] at hnew
    exact hn hnew.symm
  · intro hk j v hv
    have hj : j ≠ k := by
      rintro rfl
      rw [hk] at hv
      cases hv
    rw [Function.update_of_ne hj]
    exact h j v hv

/-- A key enters another generation exactly when it is not listed. -/
theorem Stamped.renew_iff (h : Stamped gen l) (hn : n ≠ gen k) :
    Stamped (Function.update gen k n) l ↔ ∀ p ∈ l, p.1 ≠ k := by
  constructor
  · rintro h' p hp rfl
    have hnew := h' p hp
    rw [Function.update_self, h p hp] at hnew
    exact hn hnew.symm
  · intro hk p hp
    rw [Function.update_of_ne (hk p hp)]
    exact h p hp

end

end SuperAgent
