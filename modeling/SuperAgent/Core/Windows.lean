import Mathlib.Data.Int.Interval
import Mathlib.Data.List.Nodup
import Mathlib.Tactic.Ring

/-!
# Values in windows

A window holds the values from its start on and before its end. Windows that
meet hold together, in order, what the window over both holds, and a window holds
no more multiples of a step than it has steps.
-/

namespace SuperAgent.Windows

section Order

variable {α : Type*} [LinearOrder α] {a b c : α} {ts : List α}

/-- The values of a list from one bound on and before another. -/
def within (a b : α) (ts : List α) : List α := ts.filter fun t => a ≤ t ∧ t < b

theorem mem_within {t : α} : t ∈ within a b ts ↔ t ∈ ts ∧ a ≤ t ∧ t < b := by
  simp [within]

/-- Nothing is from a bound on and before an earlier one. -/
theorem within_eq_nil (h : b ≤ a) : within a b ts = [] := by
  rw [within, List.filter_eq_nil_iff]
  intro t _ ht
  have hin := of_decide_eq_true ht
  exact absurd (h.trans hin.1) (not_le.mpr hin.2)

/-- Values in order that lie in one of two windows that meet lie in the window over both. -/
theorem within_append (h : ts.Pairwise (· ≤ ·)) (hab : a ≤ b) (hbc : b ≤ c) :
    within a b ts ++ within b c ts = within a c ts := by
  induction ts with
  | nil => rfl
  | cons t ts ih =>
    obtain ⟨hfirst, hrest⟩ := List.pairwise_cons.mp h
    have ih := ih hrest
    by_cases htb : t < b
    · have hlate : within b c (t :: ts) = within b c ts :=
        List.filter_cons_of_neg (by simp [htb])
      have htc : t < c := htb.trans_le hbc
      rw [hlate]
      by_cases hat : a ≤ t
      · have hone : ∀ d, t < d → within a d (t :: ts) = t :: within a d ts :=
          fun d hd => List.filter_cons_of_pos (by simp [hat, hd])
        rw [hone b htb, hone c htc, List.cons_append, ih]
      · have hnone : ∀ d, within a d (t :: ts) = within a d ts :=
          fun d => List.filter_cons_of_neg (by simp [hat])
        rw [hnone b, hnone c, ih]
    · -- From here on no value is before the middle bound.
      have hafter : ∀ x ∈ t :: ts, b ≤ x := by
        intro x hx
        obtain rfl | hx := List.mem_cons.mp hx
        · exact not_lt.mp htb
        · exact (not_lt.mp htb).trans (hfirst x hx)
      have hnone : within a b (t :: ts) = [] := by
        rw [within, List.filter_eq_nil_iff]
        intro x hx hin
        exact absurd (of_decide_eq_true hin).2 (not_lt.mpr (hafter x hx))
      rw [hnone, List.nil_append]
      refine List.filter_congr fun x hx => ?_
      have hb := hafter x hx
      simp [hb, hab.trans hb]

end Order

section Steps

variable {a b g : ℤ} {n : ℕ} {ts : List ℤ}

/-- A window of so many steps holds at most so many multiples of the step. -/
theorem length_within_le (hg : 0 < g) (hnodup : ts.Nodup) (hstep : ∀ t ∈ ts, g ∣ t)
    (hab : b ≤ a + n * g) : (within a b ts).length ≤ n := by
  let q := -(-a / g)
  have hq : ∀ k, a ≤ g * k ↔ q ≤ k := by
    intro k
    have hdiv : -k ≤ -a / g ↔ -k * g ≤ -a := Int.le_ediv_iff_mul_le hg
    have hcomm : -k * g = -(g * k) := by ring
    rw [hcomm] at hdiv
    simp only [q]
    omega
  have hin : ∀ t ∈ within a b ts, t / g ∈ Finset.Ico q (q + n) := by
    intro t ht
    obtain ⟨hmem, hle, hlt⟩ := mem_within.mp ht
    obtain ⟨k, rfl⟩ := hstep t hmem
    rw [Int.mul_ediv_cancel_left k hg.ne', Finset.mem_Ico]
    refine ⟨(hq k).mp hle, ?_⟩
    by_contra hnot
    have hback := (hq (k - n)).mpr (by omega)
    have hprod : g * (k - n) = g * k - n * g := by ring
    omega
  have hinj : ((within a b ts).map (· / g)).Nodup := by
    refine List.Nodup.map_on ?_ (hnodup.filter _)
    intro t ht u hu heq
    obtain ⟨k, rfl⟩ := hstep t (mem_within.mp ht).1
    obtain ⟨l, rfl⟩ := hstep u (mem_within.mp hu).1
    rw [Int.mul_ediv_cancel_left k hg.ne', Int.mul_ediv_cancel_left l hg.ne'] at heq
    rw [heq]
  have hsub : ((within a b ts).map (· / g)).toFinset ⊆ Finset.Ico q (q + n) := by
    intro k hk
    obtain ⟨t, ht, rfl⟩ := List.mem_map.mp (List.mem_toFinset.mp hk)
    exact hin t ht
  calc (within a b ts).length
    _ = ((within a b ts).map (· / g)).toFinset.card := by
      rw [List.toFinset_card_of_nodup hinj, List.length_map]
    _ ≤ (Finset.Ico q (q + n)).card := Finset.card_le_card hsub
    _ = n := by simp

end Steps

end SuperAgent.Windows
