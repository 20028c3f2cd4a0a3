import Mathlib.Data.List.Nodup
import Mathlib.Data.List.Perm.Basic

/-!
# Tables of rows

A table keeps its rows under keys, no two under one. A row is written in the
place of the one with its key, or only where its key has none, and a row is
dropped by its key.
-/

namespace SuperAgent.Table

variable {ρ κ : Type*}

/-- No two rows have one key. -/
def Unique (key : ρ → κ) (rows : List ρ) : Prop := (rows.map key).Nodup

theorem Unique.nil {key : ρ → κ} : Unique key [] := List.nodup_nil

variable [DecidableEq κ]

/-- The row of a key. -/
def row (key : ρ → κ) (k : κ) (rows : List ρ) : Option ρ := rows.find? fun r => key r = k

/-- The rows without the one of a key. -/
def erase (key : ρ → κ) (k : κ) (rows : List ρ) : List ρ := rows.filter fun r => key r ≠ k

/-- The rows with one in the place of the one with its key. -/
def put (key : ρ → κ) (x : ρ) (rows : List ρ) : List ρ := erase key (key x) rows ++ [x]

variable {key : ρ → κ} {k k' : κ} {x r : ρ} {rows rows' : List ρ}

theorem mem_of_row (h : row key k rows = some r) : r ∈ rows ∧ key r = k :=
  ⟨List.mem_of_find?_eq_some h, by simpa using List.find?_some h⟩

theorem row_eq_none : row key k rows = none ↔ ∀ r ∈ rows, key r ≠ k := by
  simp [row, List.find?_eq_none]

theorem mem_erase : r ∈ erase key k rows ↔ r ∈ rows ∧ key r ≠ k := by
  simp [erase]

theorem mem_put : r ∈ put key x rows ↔ r ∈ rows ∧ key r ≠ key x ∨ r = x := by
  rw [put, List.mem_append, mem_erase, List.mem_singleton]

theorem mem_put_self : x ∈ put key x rows := mem_put.mpr (.inr rfl)

/-! ## Rows are found -/

theorem row_append_singleton :
    row key k (rows ++ [x]) = (row key k rows).or (if key x = k then some x else none) := by
  rw [row, List.find?_append]
  by_cases h : key x = k
  · simp [row, h]
  · simp [row, h]

theorem row_cons : row key k (x :: rows) = if key x = k then some x else row key k rows := by
  by_cases h : key x = k
  · simp [row, h]
  · simp [row, h]

theorem row_erase : row key k (erase key k' rows) = if k = k' then none else row key k rows := by
  split
  · next h =>
    subst h
    exact row_eq_none.mpr fun r hr => (mem_erase.mp hr).2
  · next h =>
    induction rows with
    | nil => rfl
    | cons a rows ih =>
      by_cases ha : key a = k'
      · have hne : key a ≠ k := fun heq => h (heq.symm.trans ha)
        have hdrop : erase key k' (a :: rows) = erase key k' rows := by simp [erase, ha]
        rw [hdrop, ih, row_cons, if_neg hne]
      · have hkeep : erase key k' (a :: rows) = a :: erase key k' rows := by simp [erase, ha]
        rw [hkeep, row_cons, row_cons, ih]

/-- After a write its own key has the row, and any other key what it had. -/
theorem row_put : row key k (put key x rows) = if k = key x then some x else row key k rows := by
  rw [put, row_append_singleton, row_erase]
  by_cases h : k = key x
  · simp [h]
  · simp [h, Ne.symm h]

/-- After the writes of a table its own keys have its rows, and any other key what it had. -/
theorem row_foldl_put (h : Unique key rows') :
    row key k (rows'.foldl (fun rows x => put key x rows) rows) =
      (row key k rows').or (row key k rows) := by
  induction rows' generalizing rows with
  | nil => rfl
  | cons x rest ih =>
    obtain ⟨hx, hrest⟩ := List.nodup_cons.mp h
    rw [List.foldl_cons, ih hrest, row_put, row_cons]
    by_cases hk : key x = k
    · subst hk
      have hnone : row key (key x) rest = none :=
        row_eq_none.mpr fun r hr heq => hx (heq ▸ List.mem_map_of_mem hr)
      simp [hnone]
    · simp [hk, Ne.symm hk]

theorem Unique.row_eq_some (h : Unique key rows) :
    row key k rows = some r ↔ r ∈ rows ∧ key r = k := by
  refine ⟨mem_of_row, fun ⟨hr, hk⟩ => ?_⟩
  cases hrow : row key k rows with
  | none => exact absurd hk (row_eq_none.mp hrow r hr)
  | some r' =>
    obtain ⟨hr', hk'⟩ := mem_of_row hrow
    rw [List.inj_on_of_nodup_map h hr' hr (hk'.trans hk.symm)]

/-- A row that is there is the row of its key. -/
theorem Unique.row_self (h : Unique key rows) (hr : r ∈ rows) : row key (key r) rows = some r :=
  h.row_eq_some.mpr ⟨hr, rfl⟩

/-! ## Keys stay apart -/

theorem Unique.erase (h : Unique key rows) : Unique key (erase key k rows) :=
  h.sublist (List.filter_sublist.map key)

theorem Unique.append (h : Unique key rows) (hx : row key (key x) rows = none) :
    Unique key (rows ++ [x]) := by
  rw [Unique, List.map_append]
  refine List.Nodup.append h (List.nodup_singleton _) ?_
  rintro k hk hkx
  obtain ⟨r, hr, rfl⟩ := List.mem_map.mp hk
  exact row_eq_none.mp hx r hr (List.mem_singleton.mp hkx)

theorem Unique.put (h : Unique key rows) : Unique key (put key x rows) :=
  h.erase.append (by rw [row_erase, if_pos rfl])

/-- Tables that give every key the same row have the same rows. -/
theorem Unique.perm (h : Unique key rows) (h' : Unique key rows')
    (hrow : ∀ k, row key k rows = row key k rows') : rows.Perm rows' := by
  refine (List.perm_ext_iff_of_nodup (List.Nodup.of_map key h) (List.Nodup.of_map key h')).mpr
    fun r => ?_
  constructor
  · intro hr
    exact (mem_of_row ((hrow (key r)).symm.trans (h.row_self hr))).1
  · intro hr
    exact (mem_of_row ((hrow (key r)).trans (h'.row_self hr))).1

end SuperAgent.Table
