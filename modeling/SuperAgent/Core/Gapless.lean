import Mathlib.Data.List.Basic

/-!
# Sequences without gaps

Items that show things and come after things: in a gapless sequence an item that
comes after something owed has that thing shown before it. Such a sequence stays
gapless when its end is cut off, when an item that shows nothing owed is left
out and when its items are converted one by one.
-/

namespace SuperAgent

variable {ι κ β : Type*} {shows later : ι → β → Prop} {shows' later' : κ → β → Prop}
  {owed owed' seen seen' : β → Prop} {xs ys : List ι} {x : ι} {b : β}

/-- Whatever an item comes after and is owed was seen or shown before the item. -/
def Gapless (shows later : ι → β → Prop) (owed : β → Prop) : (β → Prop) → List ι → Prop
  | _, [] => True
  | seen, x :: xs => (∀ b, owed b → later x b → seen b) ∧
      Gapless shows later owed (fun b => seen b ∨ shows x b) xs

theorem Gapless.mono (h : Gapless shows later owed seen xs) (hseen : ∀ b, owed b → seen b → seen' b) :
    Gapless shows later owed seen' xs := by
  induction xs generalizing seen seen' with
  | nil => trivial
  | cons x xs ih =>
    refine ⟨fun b hb hlater => hseen b hb (h.1 b hb hlater), ih h.2 fun b hb => ?_⟩
    exact Or.imp_left (hseen b hb)

theorem gapless_append : Gapless shows later owed seen (xs ++ ys) ↔
    Gapless shows later owed seen xs ∧
      Gapless shows later owed (fun b => seen b ∨ ∃ x ∈ xs, shows x b) ys := by
  induction xs generalizing seen with
  | nil =>
    refine ⟨fun h => ⟨trivial, h.mono fun b _ => .inl⟩, fun h => h.2.mono fun b _ hb => ?_⟩
    exact hb.resolve_right nofun
  | cons x xs ih =>
    have hsame : ∀ b, ((seen b ∨ shows x b) ∨ ∃ y ∈ xs, shows y b) ↔
        (seen b ∨ ∃ y ∈ x :: xs, shows y b) := fun b => by
      rw [List.exists_mem_cons_iff, or_assoc]
    rw [List.cons_append, Gapless, Gapless, ih, and_assoc]
    simp only [hsame]

/-- With nothing owed there is no gap. -/
theorem gapless_of_not_owed (h : ∀ b, ¬ owed b) : Gapless shows later owed seen xs := by
  induction xs generalizing seen with
  | nil => trivial
  | cons x xs ih => exact ⟨fun b hb => absurd hb (h b), ih⟩

/-- One more item comes after nothing that was not shown. -/
theorem Gapless.snoc (h : Gapless shows later owed seen xs)
    (hx : ∀ b, owed b → later x b → seen b ∨ ∃ y ∈ xs, shows y b) :
    Gapless shows later owed seen (xs ++ [x]) := gapless_append.mpr ⟨h, hx, trivial⟩

/-- What is missing is never before an item that comes after it. -/
theorem Gapless.shown_before {pre post : List ι} (h : Gapless shows later owed seen (pre ++ x :: post))
    (hb : owed b) (hlater : later x b) : seen b ∨ ∃ y ∈ pre, shows y b :=
  (gapless_append.mp h).2.1 b hb hlater

/-- An item that shows nothing owed may be left out. -/
theorem Gapless.leave (h : Gapless shows later owed seen (xs ++ x :: ys))
    (hx : ∀ b, owed b → ¬ shows x b) : Gapless shows later owed seen (xs ++ ys) := by
  obtain ⟨hxs, -, hys⟩ := gapless_append.mp h
  exact gapless_append.mpr ⟨hxs, hys.mono fun b hb hseen => hseen.resolve_right (hx b hb)⟩

/-- Items may be converted, and left out when they show nothing owed. -/
theorem Gapless.filterMap {f : ι → Option κ} (h : Gapless shows later owed seen xs)
    (hsome : ∀ x ∈ xs, ∀ y, f x = some y →
      (∀ b, owed b → shows x b → shows' y b) ∧ ∀ b, owed b → later' y b → later x b)
    (hnone : ∀ x ∈ xs, f x = none → ∀ b, owed b → ¬ shows x b) :
    Gapless shows' later' owed seen (xs.filterMap f) := by
  induction xs generalizing seen with
  | nil => trivial
  | cons x xs ih =>
    have hrest := ih h.2 (fun y hy => hsome y (List.mem_cons_of_mem _ hy))
      (fun y hy => hnone y (List.mem_cons_of_mem _ hy))
    cases hx : f x with
    | none =>
      rw [List.filterMap_cons_none hx]
      exact hrest.mono fun b hb hseen => hseen.resolve_right (hnone x List.mem_cons_self hx b hb)
    | some y =>
      obtain ⟨hshows, hlater⟩ := hsome x List.mem_cons_self y hx
      rw [List.filterMap_cons_some hx]
      exact ⟨fun b hb hy => h.1 b hb (hlater b hb hy),
        hrest.mono fun b hb => Or.imp_right (hshows b hb)⟩

/-- More is owed when no item comes after what is new, or less. -/
theorem Gapless.owe (h : Gapless shows later owed seen xs)
    (howed : ∀ b, owed' b → owed b ∨ ∀ x ∈ xs, ¬ later x b) : Gapless shows later owed' seen xs := by
  induction xs generalizing seen with
  | nil => trivial
  | cons x xs ih =>
    refine ⟨fun b hb hlater => ?_, ih h.2 fun b hb => (howed b hb).imp_right fun hnone y hy => ?_⟩
    · rcases howed b hb with hold | hnone
      · exact h.1 b hold hlater
      · exact absurd hlater (hnone x List.mem_cons_self)
    · exact hnone y (List.mem_cons_of_mem _ hy)

end SuperAgent
