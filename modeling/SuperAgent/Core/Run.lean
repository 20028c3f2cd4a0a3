import Mathlib.Logic.Basic

/-!
# Runs of a transition system

A run records the actions it took, oldest first, and every step of it meets a
guard on the state before the step. Invariants are proved once per step and
carried along the run by `Run.invariant`. Systems given by a partial function
are run by `exec`, and `Run.of_exec` makes a run of a successful execution.
-/

namespace SuperAgent

variable {σ α : Type*} {step : σ → α → σ → Prop} {ok ok' : σ → α → Prop} {s t u : σ}
  {as bs : List α}

/-- A run from `s` whose steps all meet `ok`, with the actions taken. -/
inductive Run (step : σ → α → σ → Prop) (ok : σ → α → Prop) (s : σ) : List α → σ → Prop
  | nil : Run step ok s [] s
  | snoc {as a t u} : Run step ok s as t → ok t a → step t a u → Run step ok s (as ++ [a]) u

/-- The guard every step meets. -/
abbrev Always (_ : σ) (_ : α) : Prop := True

/-- What holds at the start and is kept by each guarded step holds at the end of every run. -/
theorem Run.invariant {I : σ → Prop} (h : Run step ok s as t) (h0 : I s)
    (hstep : ∀ t a u, I t → ok t a → step t a u → I u) : I t := by
  induction h with
  | nil => exact h0
  | snoc _ hok hs ih => exact hstep _ _ _ ih hok hs

theorem Run.trans (h : Run step ok s as t) (h' : Run step ok t bs u) :
    Run step ok s (as ++ bs) u := by
  induction h' with
  | nil => simpa using h
  | snoc _ hok hs ih => simpa using ih.snoc hok hs

/-- A run may be given one more step at its start. -/
theorem Run.cons {a : α} (h : Run step ok t as u) (hok : ok s a) (hs : step s a t) :
    Run step ok s (a :: as) u := by
  have hfirst : Run step ok s [a] t := .snoc .nil hok hs
  exact hfirst.trans h

/-- A run under a stronger guard is one under a weaker guard. -/
theorem Run.mono (h : Run step ok s as t) (hle : ∀ t a, ok t a → ok' t a) :
    Run step ok' s as t := by
  induction h with
  | nil => exact .nil
  | snoc _ hok hs ih => exact ih.snoc (hle _ _ hok) hs

/-- When steps outside the guard fall into a bad set `B` and no step leads out of it, a run
that ends outside `B` met the guard all along. -/
theorem Run.guarded {I B : σ → Prop} (h : Run step Always s as t) (h0 : I s)
    (hinv : ∀ t a u, I t → step t a u → I u) (hend : ¬ B t)
    (hkeep : ∀ t a u, I t → step t a u → B t → B u)
    (hfall : ∀ t a u, I t → step t a u → ¬ ok t a → B u) : Run step ok s as t := by
  induction h with
  | nil => exact .nil
  | @snoc as a t u h _ hs ih =>
    have hi : I t := h.invariant h0 fun t a u ht _ => hinv t a u ht
    have hmid : ¬ B t := fun hb => hend (hkeep t a u hi hs hb)
    by_cases hok : ok t a
    · exact (ih hmid).snoc hok hs
    · exact absurd (hfall t a u hi hs hok) hend

/-- Executing a list of actions with a partial step function. -/
def exec (f : σ → α → Option σ) (s : σ) : List α → Option σ
  | [] => some s
  | a :: as => (f s a).bind fun t => exec f t as

/-- A successful execution of actions the guard always allows is a run. -/
theorem Run.of_exec {f : σ → α → Option σ} (h : exec f s as = some t)
    (hok : ∀ a ∈ as, ∀ s, ok s a) : Run (fun s a t => f s a = some t) ok s as t := by
  induction as generalizing s with
  | nil =>
    obtain rfl : s = t := Option.some.inj h
    exact .nil
  | cons a as ih =>
    obtain ⟨m, hm, h⟩ := Option.bind_eq_some_iff.mp h
    have hrest := ih h fun b hb => hok b (List.mem_cons_of_mem _ hb)
    exact hrest.cons (hok a List.mem_cons_self s) hm

/-- A successful execution that checks the guard before each action is a run. -/
theorem Run.of_exec_guarded {f : σ → α → Option σ} [∀ s a, Decidable (ok s a)]
    (h : exec (fun s a => if ok s a then f s a else none) s as = some t) :
    Run (fun s a t => f s a = some t) ok s as t := by
  induction as generalizing s with
  | nil =>
    obtain rfl : s = t := Option.some.inj h
    exact .nil
  | cons a as ih =>
    obtain ⟨m, hm, h⟩ := Option.bind_eq_some_iff.mp h
    obtain ⟨hok, hm⟩ := Option.ite_none_right_eq_some.mp hm
    exact (ih h).cons hok hm

/-- The same when the guard allows the first action where it is taken. -/
theorem Run.of_exec_cons {f : σ → α → Option σ} {a : α} (h : exec f s (a :: as) = some t)
    (ha : ok s a) (hok : ∀ b ∈ as, ∀ s, ok s b) :
    Run (fun s a t => f s a = some t) ok s (a :: as) t := by
  obtain ⟨m, hm, h⟩ := Option.bind_eq_some_iff.mp h
  exact (Run.of_exec h hok).cons ha hm

section FoldlM

variable {f : σ → α → Option σ} {a : α}

/-- A fold that may stop takes one step more. -/
theorem foldlM_concat : (as ++ [a]).foldlM f s = (as.foldlM f s).bind fun t => f t a := by
  rw [List.foldlM_append, Option.bind_eq_bind]
  apply congrArg (Option.bind _)
  ext1 t
  rw [List.foldlM_cons]
  exact bind_pure (f t a)

/-- A fold that does not stop did not stop before its end. -/
theorem isSome_foldlM_of_prefix (hin : as <+: bs) (h : (bs.foldlM f s).isSome) :
    (as.foldlM f s).isSome := by
  obtain ⟨rest, rfl⟩ := hin
  rw [List.foldlM_append] at h
  exact Option.isSome_of_isSome_bind h

/-- A list is mapped where each of its elements is. -/
theorem mapM_eq_some {γ : Type*} {g : σ → Option γ} {l : List σ} (h : ∀ x ∈ l, (g x).isSome) :
    ∃ ys, l.mapM g = some ys := by
  induction l with
  | nil => exact ⟨[], rfl⟩
  | cons x l ih =>
    obtain ⟨y, hy⟩ := Option.isSome_iff_exists.mp (h x List.mem_cons_self)
    obtain ⟨ys, hys⟩ := ih fun z hz => h z (List.mem_cons_of_mem x hz)
    refine ⟨y :: ys, ?_⟩
    rw [List.mapM_cons, hy, hys]
    rfl

end FoldlM

/-- Where each conversion is known, the list is converted element by element. -/
theorem mapM_eq_some_map {γ : Type*} {f : σ → Option γ} {g : σ → γ} {l : List σ}
    (h : ∀ x ∈ l, f x = some (g x)) : l.mapM f = some (l.map g) := by
  induction l with
  | nil => rfl
  | cons x l ih =>
    rw [List.mapM_cons, h x List.mem_cons_self, ih fun y hy => h y (List.mem_cons_of_mem x hy)]
    rfl

end SuperAgent
