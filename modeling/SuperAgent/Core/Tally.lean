import Mathlib.Algebra.BigOperators.Group.Finset.Piecewise
import Mathlib.Algebra.Order.BigOperators.Group.Finset
import Mathlib.Algebra.GroupWithZero.Nat

/-!
# Lists of keyed amounts

A ledger is a list of amounts with their keys, and `tally` is what it holds
under one key. Moving an entry from one ledger to another, changing one of many
ledgers and adding to an entry are the moves later proofs follow.
-/

namespace SuperAgent

variable {κ β : Type*} [DecidableEq κ] {k : κ} {a : ℕ} {e : κ × ℕ} {l l' : List (κ × ℕ)}

/-- What a list of keyed amounts holds under one key. -/
def tally (k : κ) (l : List (κ × ℕ)) : ℕ := (l.map fun e => if e.1 = k then e.2 else 0).sum

@[simp] theorem tally_nil : tally k [] = 0 := rfl

@[simp] theorem tally_cons : tally k (e :: l) = (if e.1 = k then e.2 else 0) + tally k l := rfl

@[simp] theorem tally_append : tally k (l ++ l') = tally k l + tally k l' := by
  simp [tally]

theorem tally_perm (h : l.Perm l') : tally k l = tally k l' :=
  (h.map _).sum_eq

theorem tally_sublist (h : l.Sublist l') : tally k l ≤ tally k l' :=
  (h.map _).sum_le_sum fun _ _ => Nat.zero_le _

/-- Larger amounts under the same keys. -/
theorem tally_map_mono {f g : ℕ → ℕ} (h : ∀ a, f a ≤ g a) :
    tally k (l.map fun e => (e.1, f e.2)) ≤ tally k (l.map fun e => (e.1, g e.2)) := by
  induction l with
  | nil => exact le_rfl
  | cons e l ih =>
    simp only [List.map_cons, tally_cons]
    have := h e.2
    split <;> omega

/-- Where keys do not repeat, an entry is its key's whole tally. -/
theorem tally_of_nodup (h : (l.map Prod.fst).Nodup) (ha : (k, a) ∈ l) : tally k l = a := by
  obtain ⟨l₁, l₂, rfl⟩ := List.append_of_mem ha
  have hk : k ∉ l₁.map Prod.fst ++ l₂.map Prod.fst := by
    have hmid : (k :: (l₁.map Prod.fst ++ l₂.map Prod.fst)).Nodup :=
      List.nodup_middle.mp (by simpa using h)
    exact (List.nodup_cons.mp hmid).1
  have hzero : ∀ m : List (κ × ℕ), k ∉ m.map Prod.fst → tally k m = 0 := by
    intro m hm
    refine List.sum_eq_zero fun x hx => ?_
    obtain ⟨e, he, rfl⟩ := List.mem_map.mp hx
    refine if_neg fun hke => hm ?_
    exact List.mem_map.mpr ⟨e, he, hke⟩
  rw [List.mem_append, not_or] at hk
  rw [tally_append, tally_cons, hzero l₁ hk.1, hzero l₂ hk.2]
  simp

/-- An entry is part of its key's tally. -/
theorem le_tally_of_mem (h : (k, a) ∈ l) : a ≤ tally k l := by
  obtain ⟨l₁, l₂, rfl⟩ := List.append_of_mem h
  simp only [tally_append, tally_cons, if_true]
  omega

/-- A ledger is part of all of them. -/
theorem le_tally_flatMap {xs : List β} {x : β} (f : β → List (κ × ℕ)) (h : x ∈ xs) :
    tally k (f x) ≤ tally k (xs.flatMap f) := by
  obtain ⟨l₁, l₂, rfl⟩ := List.append_of_mem h
  simp only [List.flatMap_append, List.flatMap_cons, tally_append]
  omega

/-- Exchanging one of many ledgers changes the tally by the difference. -/
theorem tally_flatMap_set {xs : List β} {j : ℕ} {x : β} (y : β) (f : β → List (κ × ℕ))
    (h : xs[j]? = some x) :
    tally k ((xs.set j y).flatMap f) + tally k (f x) = tally k (xs.flatMap f) + tally k (f y) := by
  induction xs generalizing j with
  | nil => simp at h
  | cons z xs ih =>
    cases j with
    | zero =>
      obtain rfl : z = x := by simpa using h
      simp only [List.set_cons_zero, List.flatMap_cons, tally_append]
      omega
    | succ j =>
      have htail := ih (j := j) (by simpa using h)
      simp only [List.set_cons_succ, List.flatMap_cons, tally_append]
      omega

/-- Exchanging one ledger for another with the same entries changes nothing. -/
theorem flatMap_set {γ : Type*} {xs : List β} {j : ℕ} {x y : β} (f : β → List γ)
    (h : xs[j]? = some x) (hf : f y = f x) : (xs.set j y).flatMap f = xs.flatMap f := by
  induction xs generalizing j with
  | nil => simp at h
  | cons z xs ih =>
    cases j with
    | zero =>
      obtain rfl : z = x := by simpa using h
      simp [hf]
    | succ j =>
      rw [List.set_cons_succ, List.flatMap_cons, List.flatMap_cons, ih (by simpa using h)]

/-- Ledgers that are parts of others are so together. -/
theorem flatMap_sublist {γ : Type*} (xs : List β) {f g : β → List γ}
    (h : ∀ x ∈ xs, (f x).Sublist (g x)) : (xs.flatMap f).Sublist (xs.flatMap g) := by
  induction xs with
  | nil => simp
  | cons x xs ih =>
    rw [List.flatMap_cons, List.flatMap_cons]
    exact (h x List.mem_cons_self).append (ih fun y hy => h y (List.mem_cons_of_mem _ hy))

/-- The tallies of different keys share the ledger's amounts. -/
theorem sum_tally_le (s : Finset κ) (l : List (κ × ℕ)) :
    ∑ k ∈ s, tally k l ≤ (l.map Prod.snd).sum := by
  induction l with
  | nil => simp
  | cons e l ih =>
    have hone : ∑ k ∈ s, (if e.1 = k then e.2 else 0) ≤ e.2 := by
      rw [Finset.sum_ite_eq]
      split <;> simp
    simp only [tally_cons, Finset.sum_add_distrib, List.map_cons, List.sum_cons]
    exact Nat.add_le_add hone ih

/-- Adding to a key's entry, or a new entry for it. -/
def bump : List (κ × ℕ) → κ → ℕ → List (κ × ℕ)
  | [], k, a => [(k, a)]
  | e :: l, k, a => if e.1 = k then (k, e.2 + a) :: l else e :: bump l k a

/-- An added amount raises its own key's tally. -/
theorem tally_bump (l : List (κ × ℕ)) (k' : κ) (a : ℕ) :
    tally k (bump l k' a) = tally k l + if k' = k then a else 0 := by
  induction l with
  | nil => simp [bump]
  | cons e l ih =>
    rw [bump]
    split
    · next he =>
      subst he
      simp only [tally_cons]
      split <;> omega
    · simp only [tally_cons, ih]
      omega

theorem mem_bump {k' : κ} (h : e ∈ bump l k' a) :
    e ∈ l ∨ e.1 = k' ∧ (e.2 = a ∨ ∃ b, (k', b) ∈ l ∧ e.2 = b + a) := by
  induction l with
  | nil =>
    rw [bump, List.mem_singleton] at h
    exact .inr ⟨by rw [h], .inl (by rw [h])⟩
  | cons d l ih =>
    rw [bump] at h
    split at h
    · next hd =>
      rcases List.mem_cons.mp h with rfl | h
      · exact .inr ⟨rfl, .inr ⟨d.2, by simp [← hd], rfl⟩⟩
      · exact .inl (List.mem_cons_of_mem _ h)
    · rcases List.mem_cons.mp h with rfl | h
      · exact .inl List.mem_cons_self
      · rcases ih h with h | ⟨hk, h | ⟨b, hb, h⟩⟩
        · exact .inl (List.mem_cons_of_mem _ h)
        · exact .inr ⟨hk, .inl h⟩
        · exact .inr ⟨hk, .inr ⟨b, List.mem_cons_of_mem _ hb, h⟩⟩

/-- Every entry is all that its key was given, or nothing. -/
def Whole (w : κ → ℕ) (l : List (κ × ℕ)) : Prop := ∀ e ∈ l, e.2 = 0 ∨ e.2 = w e.1

variable {w w' : κ → ℕ}

omit [DecidableEq κ] in
theorem whole_append : Whole w (l ++ l') ↔ Whole w l ∧ Whole w l' := by
  simp only [Whole, List.mem_append, or_imp, forall_and]

/-- Where a key never holds more than it was given, adding back a whole amount keeps entries
whole. -/
theorem Whole.bump (h : Whole w l) (ha : a = 0 ∨ a = w k) (hle : tally k l + a ≤ w k) :
    Whole w (bump l k a) := by
  intro e he
  rcases mem_bump he with he | ⟨rfl, he | ⟨b, hb, he⟩⟩
  · exact h e he
  · rwa [he]
  · have hin := le_tally_of_mem hb
    have hb : b = 0 ∨ b = w e.1 := h _ hb
    omega

/-- A positive tally has an entry. -/
theorem exists_mem_of_tally_pos (hpos : 0 < tally k l) : ∃ e ∈ l, e.1 = k ∧ e.2 ≠ 0 := by
  by_contra hnone
  have hzero : tally k l = 0 := by
    apply List.sum_eq_zero
    intro x hx
    obtain ⟨e, he, rfl⟩ := List.mem_map.mp hx
    split
    · next hk =>
      by_contra hne
      exact hnone ⟨e, he, hk, hne⟩
    · rfl
  omega

/-- A positive tally of whole entries is at least what the key was given. -/
theorem Whole.le_tally (h : Whole w l) (hpos : 0 < tally k l) : w k ≤ tally k l := by
  obtain ⟨e, he, rfl, hne⟩ := exists_mem_of_tally_pos hpos
  have hwhole := (h e he).resolve_left hne
  have hle := le_tally_of_mem (a := e.2) he
  omega

end SuperAgent
