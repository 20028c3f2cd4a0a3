import Mathlib.Data.List.Basic
import Mathlib.Data.List.Flatten
import Mathlib.Data.List.Sort
import Mathlib.Order.Lattice

/-!
# Pages

A list read a page at a time, by the number of items to skip or by the key that
the last page ended with.
-/

namespace SuperAgent

variable {α κ τ : Type*}

section Descending

variable [LinearOrder κ] {key : α → κ} {l m : List α}

/-- Sorted from the greatest key down. -/
def descending (key : α → κ) (l : List α) : List α :=
  l.insertionSort fun a b => key b ≤ key a

theorem descending_perm (key : α → κ) (l : List α) : (descending key l).Perm l :=
  List.perm_insertionSort _ l

/-- Items of different keys descend strictly. -/
theorem pairwise_descending (h : (l.map key).Nodup) :
    (descending key l).Pairwise fun a b => key b < key a := by
  have : Std.Total fun a b : α => key b ≤ key a := ⟨fun a b => le_total (key b) (key a)⟩
  have : IsTrans α fun a b => key b ≤ key a := ⟨fun _ _ _ hab hbc => hbc.trans hab⟩
  have hsorted : (descending key l).Pairwise fun a b => key b ≤ key a :=
    List.pairwise_insertionSort _ l
  have hnodup : ((descending key l).map key).Nodup :=
    ((descending_perm key l).map key).nodup_iff.mpr h
  exact hsorted.imp₂ (fun a b hle hne => lt_of_le_of_ne hle (Ne.symm hne))
    (List.pairwise_map.mp hnodup)

/-- Items that descend strictly are in no other order that does. -/
theorem eq_of_descending (h : l.Perm m) (hl : l.Pairwise fun a b => key b < key a)
    (hm : m.Pairwise fun a b => key b < key a) : l = m :=
  h.eq_of_pairwise (fun _ _ _ _ hab hba => (hab.asymm hba).elim) hl hm

/-- It does not matter whether a list is narrowed before it is sorted or after. -/
theorem descending_filter (h : (l.map key).Nodup) (p : α → Bool) :
    descending key (l.filter p) = (descending key l).filter p :=
  eq_of_descending ((descending_perm key _).trans ((descending_perm key l).symm.filter p))
    (pairwise_descending (h.sublist (List.filter_sublist.map key)))
    ((pairwise_descending h).filter p)

/-- What lies below the key of one item of a list that descends is what follows it. -/
theorem filter_below (h : l.Pairwise fun a b => key b < key a) {k : Nat} (hk : k < l.length) :
    l.filter (fun a => key a < key l[k]) = l.drop (k + 1) := by
  induction l generalizing k with
  | nil => cases hk
  | cons a l ih =>
    obtain ⟨ha, hl⟩ := List.pairwise_cons.mp h
    cases k with
    | zero =>
      rw [List.getElem_cons_zero, List.filter_cons_of_neg (by simp), List.drop_one, List.tail_cons]
      exact List.filter_eq_self.mpr fun b hb => decide_eq_true (ha b hb)
    | succ k =>
      have hk' : k < l.length := Nat.lt_of_succ_lt_succ hk
      have habove : ¬ key a < key l[k] := (ha _ (List.getElem_mem hk')).asymm
      rw [List.getElem_cons_succ, List.filter_cons_of_neg (by simpa using habove), ih hl hk',
        List.drop_succ_cons]

end Descending

/-! ## Walks -/

/-- Read page after page, each where the last one says, until a page says it is the last. -/
def walk [DecidableEq τ] (read : τ → Option (List α × τ)) (done : τ) :
    Nat → τ → Option (List (List α))
  | 0, _ => none
  | fuel + 1, token => (read token).bind fun p =>
    if p.2 = done then some [p.1] else (walk read done fuel p.2).map (p.1 :: ·)

variable [DecidableEq τ] {read : τ → Option (List α × τ)} {done : τ} {token : Nat → τ}
  {l : List α} {size : Nat}

/-- Pages that are cut from a list one after the other, each but the last of them full, are walked
to the end of the list, whatever fuel more there is. -/
theorem walk_spec (hsize : 0 < size) (hdone : ∀ k, 0 < k → k ≤ l.length → token k ≠ done)
    (hread : ∀ k ≤ l.length, read (token k) = some ((l.drop k).take size,
      if k + size ≤ l.length then token (k + size) else done)) (n : Nat) :
    ∀ k ≤ l.length, l.length < k + n →
      ∃ pages, (∀ fuel, n ≤ fuel → walk read done fuel (token k) = some pages) ∧
        pages.flatten = l.drop k := by
  induction n with
  | zero =>
    intro k hk hn
    omega
  | succ n ih =>
    intro k hk hn
    by_cases hfull : k + size ≤ l.length
    · obtain ⟨pages, hwalk, hpages⟩ := ih (k + size) hfull (by omega)
      refine ⟨(l.drop k).take size :: pages, fun fuel hfuel => ?_, ?_⟩
      · obtain ⟨fuel, rfl⟩ := Nat.exists_eq_add_of_le' hfuel
        rw [← Nat.add_assoc, walk, hread k hk, if_pos hfull, Option.bind_some,
          if_neg (hdone _ (by omega) hfull), hwalk _ (Nat.le_add_left n fuel), Option.map_some]
      · rw [List.flatten_cons, hpages, ← List.drop_drop, List.take_append_drop]
    · refine ⟨[(l.drop k).take size], fun fuel hfuel => ?_, ?_⟩
      · obtain ⟨fuel, rfl⟩ := Nat.exists_eq_add_of_le' hfuel
        rw [← Nat.add_assoc, walk, hread k hk, if_neg hfull, Option.bind_some, if_pos rfl]
      · rw [List.flatten_singleton, List.take_of_length_le]
        rw [List.length_drop]
        omega

end SuperAgent
