import Mathlib.Algebra.BigOperators.Group.List.Basic
import Mathlib.Data.List.AList
import Mathlib.Data.List.Dedup
import Mathlib.Data.List.Induction
import Mathlib.Order.Basic
import Mathlib.Order.Lattice

/-!
# Groups and ranks

Items are gathered by a key, with one accumulator for each key that appears. An
accumulator holds what the items of its key add up to, in their order. In a
list from the greatest value to the least, an item's place is the number of
greater values, unless an item before it has the same value.
-/

namespace SuperAgent

variable {κ α β : Type*} [DecidableEq κ] {key : α → κ} {start : κ → β} {add : β → α → β}
  {xs ys : List α} {x : α} {k : κ}

/-! ## Groups -/

/-- The items of a key. -/
def itemsOf (key : α → κ) (xs : List α) (k : κ) : List α := xs.filter fun x => key x = k

/-- The accumulators after one more item. -/
def gather (key : α → κ) (start : κ → β) (add : β → α → β) (m : AList fun _ : κ => β) (x : α) :
    AList fun _ : κ => β :=
  m.insert (key x) (add ((m.lookup (key x)).getD (start (key x))) x)

theorem itemsOf_concat : itemsOf key (xs ++ [x]) k =
    if key x = k then itemsOf key xs k ++ [x] else itemsOf key xs k := by
  rw [itemsOf, List.filter_append]
  by_cases h : key x = k <;> simp [h, itemsOf]

theorem itemsOf_ne_nil : itemsOf key xs k ≠ [] ↔ k ∈ xs.map key := by
  simp [itemsOf, List.filter_eq_nil_iff]

/-- A key's accumulator is what its items add up to. -/
theorem lookup_gather (xs : List α) (k : κ) : (xs.foldl (gather key start add) ∅).lookup k =
    if itemsOf key xs k = [] then none else some ((itemsOf key xs k).foldl add (start k)) := by
  induction xs using List.reverseRecOn with
  | nil => rfl
  | append_singleton xs x ih =>
    rw [List.foldl_concat, gather, itemsOf_concat]
    by_cases h : key x = k
    · subst h
      have hadd : ((xs.foldl (gather key start add) ∅).lookup (key x)).getD (start (key x)) =
          (itemsOf key xs (key x)).foldl add (start (key x)) := by
        rw [ih]
        split
        · next hnil =>
          rw [hnil]
          rfl
        · rfl
      rw [AList.lookup_insert, hadd, if_pos rfl, if_neg (by simp), List.foldl_concat]
    · rw [AList.lookup_insert_ne (Ne.symm h), if_neg h, ih]

/-- Every key that appears has one accumulator. -/
theorem entries_gather (key : α → κ) (start : κ → β) (add : β → α → β) (xs : List α) :
    (xs.foldl (gather key start add) ∅).entries.Perm
    ((xs.map key).dedup.map fun k => ⟨k, (itemsOf key xs k).foldl add (start k)⟩) := by
  have hkeys : ((xs.map key).dedup.map fun k =>
      (⟨k, (itemsOf key xs k).foldl add (start k)⟩ : Sigma fun _ : κ => β)).Nodup :=
    (List.nodup_dedup _).map fun a b h => congrArg Sigma.fst h
  have hentries := (xs.foldl (gather key start add) ∅).nodupKeys
  refine (List.perm_ext_iff_of_nodup (List.Nodup.of_map _ hentries) hkeys).mpr fun e => ?_
  have hlookup : e ∈ (xs.foldl (gather key start add) ∅).entries ↔
      (xs.foldl (gather key start add) ∅).lookup e.1 = some e.2 := AList.mem_lookup_iff.symm
  rw [hlookup, lookup_gather, List.mem_map]
  have hmem : ∀ k, k ∈ (xs.map key).dedup ↔ itemsOf key xs k ≠ [] := fun _ =>
    List.mem_dedup.trans itemsOf_ne_nil.symm
  simp only [hmem]
  constructor
  · intro h
    split at h
    · cases h
    · next hne => exact ⟨e.1, hne, Sigma.ext rfl (heq_of_eq (Option.some.inj h))⟩
  · rintro ⟨k, hne, rfl⟩
    exact if_neg hne

/-- The groups make up the items. -/
theorem flatMap_itemsOf_perm {ks : List κ} (hks : ks.Nodup) (h : ∀ x ∈ xs, key x ∈ ks) :
    (ks.flatMap (itemsOf key xs)).Perm xs := by
  induction ks generalizing xs with
  | nil =>
    cases xs with
    | nil => exact .refl _
    | cons x xs => exact absurd (h x List.mem_cons_self) List.not_mem_nil
  | cons k ks ih =>
    obtain ⟨hk, hks⟩ := List.nodup_cons.mp hks
    -- the other groups are those of the items of other keys
    have hothers : ∀ k' ∈ ks,
        itemsOf key xs k' = itemsOf key (xs.filter fun x => ¬ key x = k) k' := by
      intro k' hk'
      rw [itemsOf, itemsOf, List.filter_filter]
      refine List.filter_congr fun x _ => ?_
      by_cases hx : key x = k'
      · have hne : key x ≠ k := fun heq => hk (heq ▸ hx ▸ hk')
        simp [hx, hx ▸ hne]
      · simp [hx]
    have hrest := ih hks fun x hx => by
      obtain ⟨hin, hne⟩ := List.mem_filter.mp hx
      exact (List.mem_cons.mp (h x hin)).resolve_left (of_decide_eq_true hne)
    rw [List.flatMap_cons, List.flatMap_congr hothers]
    refine (hrest.append_left _).trans ?_
    simpa [itemsOf] using List.filter_append_perm (fun x => decide (key x = k)) xs

/-- What the groups add up to is what the items add up to. -/
theorem sum_itemsOf {M : Type*} [AddCommMonoid M] (f : α → M) {ks : List κ} (hks : ks.Nodup)
    (h : ∀ x ∈ xs, key x ∈ ks) :
    (ks.map fun k => ((itemsOf key xs k).map f).sum).sum = (xs.map f).sum := by
  rw [← ((flatMap_itemsOf_perm hks h).map f).sum_eq, List.map_flatMap, List.flatMap_def,
    List.sum_flatten, List.map_map]
  rfl

theorem itemsOf_perm (h : xs.Perm ys) : (itemsOf key xs k).Perm (itemsOf key ys k) := h.filter _

/-! ## Ranks -/

section Ranks

variable {γ δ : Type*} [LinearOrder γ] [LinearOrder δ] {v : α → γ} {n : α → δ}
  {pre post : List α} {a b : α}

/-- Before another item: by the greater value, and by name when the values are the same. -/
def Before (v : α → γ) (n : α → δ) (a b : α) : Prop := v b < v a ∨ v a = v b ∧ n a ≤ n b

instance : Std.Total (Before v n) where
  total a b := by
    rcases lt_trichotomy (v a) (v b) with h | h | h
    · exact .inr (.inl h)
    · rcases le_total (n a) (n b) with hn | hn
      · exact .inl (.inr ⟨h, hn⟩)
      · exact .inr (.inr ⟨h.symm, hn⟩)
    · exact .inl (.inl h)

instance : IsTrans α (Before v n) where
  trans a b c := by
    rintro (hab | ⟨hab, hn⟩) (hbc | ⟨hbc, hn'⟩)
    · exact .inl (hbc.trans hab)
    · exact .inl (hbc ▸ hab)
    · exact .inl (hab ▸ hbc)
    · exact .inr ⟨hab.trans hbc, hn.trans hn'⟩

theorem Before.le (h : Before v n a b) : v b ≤ v a := by
  rcases h with h | ⟨h, -⟩
  · exact h.le
  · exact h.ge

/-- Items before each other have the same name. -/
theorem Before.antisymm (h : Before v n a b) (h' : Before v n b a) : v a = v b ∧ n a = n b := by
  rcases h with h | ⟨h, hn⟩
  · exact absurd h'.le h.not_ge
  · rcases h' with h' | ⟨-, hn'⟩
    · exact absurd h h'.ne
    · exact ⟨h, le_antisymm hn hn'⟩

/-- An item's place is the number of greater values exactly when no item before it has the same. -/
theorem countP_greater_eq_iff (h : (pre ++ a :: post).Pairwise fun x y => v y ≤ v x) :
    (pre ++ a :: post).countP (fun x => v a < v x) = pre.length ↔ ∀ x ∈ pre, v x ≠ v a := by
  obtain ⟨-, hpost, hcross⟩ := List.pairwise_append.mp h
  have hpre : ∀ x ∈ pre, v a ≤ v x := fun x hx => hcross x hx a List.mem_cons_self
  have hnone : (a :: post).countP (fun x => v a < v x) = 0 := by
    refine List.countP_eq_zero.mpr fun x hx => ?_
    rw [decide_eq_true_eq, not_lt]
    rcases List.mem_cons.mp hx with rfl | hx
    · exact le_rfl
    · exact List.rel_of_pairwise_cons hpost hx
  rw [List.countP_append, hnone, Nat.add_zero, List.countP_eq_length]
  refine forall₂_congr fun x hx => ?_
  rw [decide_eq_true_eq]
  exact ⟨fun hlt => hlt.ne', fun hne => lt_of_le_of_ne (hpre x hx) hne.symm⟩

/-- The first item that is searched for is found at its place. -/
theorem findIdx?_middle {p : α → Bool} (hpre : ∀ x ∈ pre, p x = false) (ha : p a = true) :
    (pre ++ a :: post).findIdx? p = some pre.length := by
  rw [List.findIdx?_append, List.findIdx?_eq_none_iff.mpr hpre, List.findIdx?_cons, if_pos ha,
    Option.none_or, Option.map_some, Nat.zero_add]

end Ranks

end SuperAgent
