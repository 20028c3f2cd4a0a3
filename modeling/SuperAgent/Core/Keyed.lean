import Mathlib.Logic.Function.Basic

/-!
# Keyed notes

A mapping kept by noting items one after the other: an item that is live takes
its key's place, any other empties it. The last item of a key decides, so what
a mapping held before matters only at the keys that are not noted.
-/

namespace SuperAgent

variable {κ β : Type*} [DecidableEq κ] {key : β → κ} {live : β → Bool} {m m' : κ → Option β}
  {v : β} {vs ws : List β} {k : κ}

/-- What is found in a mapping after a key was given an item. -/
theorem update_some_eq_some {a : κ} {w x : β} :
    Function.update m a (some w) k = some x ↔ k = a ∧ w = x ∨ k ≠ a ∧ m k = some x := by
  by_cases h : k = a
  · simp [h]
  · simp [h]

/-- What is found in a mapping after a key was emptied. -/
theorem update_none_eq_some {a : κ} {x : β} :
    Function.update m a none k = some x ↔ k ≠ a ∧ m k = some x := by
  by_cases h : k = a
  · simp [h]
  · simp [h]

/-- The mapping once an item is noted. -/
def note (key : β → κ) (live : β → Bool) (m : κ → Option β) (v : β) : κ → Option β :=
  Function.update m (key v) (if live v then some v else none)

/-- The mapping once a list of items is noted. -/
def notes (key : β → κ) (live : β → Bool) (m : κ → Option β) (vs : List β) : κ → Option β :=
  vs.foldl (note key live) m

@[simp] theorem notes_nil : notes key live m [] = m := rfl

@[simp] theorem notes_cons :
    notes key live m (v :: vs) = notes key live (note key live m v) vs := rfl

@[simp] theorem notes_append :
    notes key live m (vs ++ ws) = notes key live (notes key live m vs) ws :=
  List.foldl_append

/-- A key that is not noted keeps what it had. -/
theorem notes_of_not_mem (h : k ∉ vs.map key) : notes key live m vs k = m k := by
  induction vs generalizing m with
  | nil => rfl
  | cons v vs ih =>
    rw [List.map_cons, List.mem_cons, not_or] at h
    rw [notes_cons, ih h.2, note, Function.update_of_ne h.1]

/-- A key that is noted forgets what it had. -/
theorem notes_of_mem (h : k ∈ vs.map key) : notes key live m vs k = notes key live m' vs k := by
  induction vs generalizing m m' with
  | nil => cases h
  | cons v vs ih =>
    rw [notes_cons, notes_cons]
    by_cases hk : k ∈ vs.map key
    · exact ih hk
    · obtain rfl : k = key v := (List.mem_cons.mp h).resolve_right hk
      rw [notes_of_not_mem hk, notes_of_not_mem hk, note, note, Function.update_self,
        Function.update_self]

/-- Noting over a mapping is noting from nothing exactly when each of its keys is noted. -/
theorem notes_eq_fresh_iff : notes key live m vs = notes key live (fun _ => none) vs ↔
    ∀ k, m k ≠ none → k ∈ vs.map key := by
  constructor
  · intro h k hk
    by_contra hnot
    have hat := congrFun h k
    rw [notes_of_not_mem hnot, notes_of_not_mem hnot] at hat
    exact hk hat
  · intro h
    ext1 k
    by_cases hk : k ∈ vs.map key
    · exact notes_of_mem hk
    · rw [notes_of_not_mem hk, notes_of_not_mem hk]
      by_contra hne
      exact hk (h k hne)

/-- Every item of a mapping is live and under its own key. -/
def Filed (key : β → κ) (live : β → Bool) (m : κ → Option β) : Prop :=
  ∀ k v, m k = some v → key v = k ∧ live v = true

theorem Filed.note (h : Filed key live m) (v : β) : Filed key live (note key live m v) := by
  intro k w hw
  by_cases hk : k = key v
  · subst hk
    rw [SuperAgent.note, Function.update_self, Option.ite_none_right_eq_some] at hw
    obtain ⟨hlive, hw⟩ := hw
    exact Option.some.inj hw ▸ ⟨rfl, hlive⟩
  · rw [SuperAgent.note, Function.update_of_ne hk] at hw
    exact h k w hw

theorem Filed.notes (h : Filed key live m) (vs : List β) : Filed key live (notes key live m vs) := by
  induction vs generalizing m with
  | nil => exact h
  | cons v vs ih => exact ih (h.note v)

/-- A list of a mapping's items, each once. -/
structure Ranges (key : β → κ) (vs : List β) (m : κ → Option β) : Prop where
  nodup : (vs.map key).Nodup
  mem_iff : ∀ v, v ∈ vs ↔ m (key v) = some v

end SuperAgent
