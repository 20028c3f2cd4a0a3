import Mathlib.Algebra.BigOperators.Group.List.Basic
import SuperAgent.Platform.Prize

/-!
# A receipt's shares

A receipt that does not cover what the strategies accrued is divided in
proportion, each share rounded down. No strategy gets more than it accrued, what
is left over is less than one unit for each of them, and a larger receipt is no
strategy's loss.
-/

namespace SuperAgent.Platform

/-! ## Proportional shares -/

/-- A part of a total in proportion to what was received, or the whole part when that is no less
than the total. -/
def share (total received v : ℕ) : ℕ := if total ≤ received then v else v * received / total

variable {total r r' v : ℕ}

theorem share_of_le (h : total ≤ r) : share total r = id := funext fun _ => if_pos h

theorem share_of_lt (h : ¬ total ≤ r) : share total r = fun v => v * r / total :=
  funext fun _ => if_neg h

theorem share_zero (total r : ℕ) : share total r 0 = 0 := by
  rw [share]
  split
  · rfl
  · rw [Nat.zero_mul, Nat.zero_div]

theorem share_le_part (total r v : ℕ) : share total r v ≤ v := by
  rw [share]
  split
  · exact le_rfl
  · next hshort =>
    refine Nat.div_le_of_le_mul ?_
    rw [Nat.mul_comm total]
    exact Nat.mul_le_mul_left v (not_le.mp hshort).le

/-- What more is received, no share gets smaller, also where the total is reached. -/
theorem share_mono (h : r ≤ r') : share total r v ≤ share total r' v := by
  by_cases hall : total ≤ r'
  · rw [share_of_le hall]
    exact share_le_part total r v
  · rw [share_of_lt hall, share_of_lt fun hr => hall (hr.trans h)]
    exact Nat.div_le_div_right (Nat.mul_le_mul_left v h)

/-- Quotients and remainders, summed over the parts. -/
theorem sum_div_mod (l : List ℕ) (r total : ℕ) :
    total * (l.map fun v => v * r / total).sum + (l.map fun v => v * r % total).sum =
      l.sum * r := by
  induction l with
  | nil => simp
  | cons v l ih =>
    have hone := Nat.div_add_mod (v * r) total
    simp only [List.map_cons, List.sum_cons, Nat.mul_add, Nat.add_mul]
    omega

/-- The remainders are less than the total each. -/
theorem sum_mod_le (l : List ℕ) (r : ℕ) (htotal : 0 < total) :
    (l.map fun v => v * r % total).sum + l.length ≤ total * l.length := by
  induction l with
  | nil => simp
  | cons v l ih =>
    have hone := Nat.mod_lt (v * r) htotal
    simp only [List.map_cons, List.sum_cons, List.length_cons, Nat.mul_add, Nat.mul_one]
    omega

/-- The shares are at most what was received and at most the whole. -/
theorem sum_share_le (l : List ℕ) (r : ℕ) :
    (l.map (share l.sum r)).sum ≤ min r l.sum := by
  have hwhole : (l.map (share l.sum r)).sum ≤ l.sum := by
    have hparts := List.sum_le_sum (l := l) (f := share l.sum r) (g := id)
      fun v _ => share_le_part l.sum r v
    rwa [List.map_id] at hparts
  refine le_min ?_ hwhole
  by_cases hall : l.sum ≤ r
  · exact hwhole.trans hall
  · have hsplit := sum_div_mod l r l.sum
    have hle : l.sum * (l.map fun v => v * r / l.sum).sum ≤ l.sum * r := by omega
    rw [share_of_lt hall]
    exact Nat.le_of_mul_le_mul_left hle (by omega)

/-- The shares leave less than one unit for each part. -/
theorem min_le_sum_share (l : List ℕ) (r : ℕ) :
    min r l.sum ≤ (l.map (share l.sum r)).sum + (l.length - 1) := by
  by_cases hall : l.sum ≤ r
  · rw [share_of_le hall, List.map_id]
    omega
  · have htotal : 0 < l.sum := by omega
    have hne : 0 < l.length := List.length_pos_iff.mpr fun h => by
      rw [h] at htotal
      cases htotal
    have hsplit := sum_div_mod l r l.sum
    have hrest := sum_mod_le l r htotal
    rw [share_of_lt hall]
    generalize (l.map fun v => v * r / l.sum).sum = shares at hsplit ⊢
    have hlt : l.sum * r < l.sum * (shares + l.length) := by
      rw [Nat.mul_add]
      omega
    have hless := Nat.lt_of_mul_lt_mul_left hlt
    omega

/-! ## What a receipt allocates -/

/-- A quotient; dividing by zero panics. -/
def quo (a b : ℕ) : Option ℕ := if b = 0 then none else some (a / b)

/-- The allocation with the division as it is made, entry by entry. -/
def allocateDividing (accrued : List (String × ℕ)) (received : ℕ) :
    Option (List (String × ℕ)) :=
  let total := (accrued.map Prod.snd).sum
  (accrued.mapM fun (e : String × ℕ) =>
    if e.2 = 0 then some none
    else if total ≤ received then some (some e)
    else (quo (e.2 * received) total).map fun part => some (e.1, part)).map (List.filterMap id)

variable (accrued : List (String × ℕ)) (received : ℕ)

/-- An entry that is divided is part of the total, so that is not zero. -/
theorem allocateDividing_eq :
    allocateDividing accrued received = some (allocate accrued received) := by
  have hpart : ∀ e ∈ accrued, (if e.2 = 0 then some none
      else if (accrued.map Prod.snd).sum ≤ received then some (some e)
      else (quo (e.2 * received) (accrued.map Prod.snd).sum).map fun part => some (e.1, part)) =
        some (if e.2 = 0 then none
          else some (e.1, share (accrued.map Prod.snd).sum received e.2)) := by
    intro e he
    have hle : e.2 ≤ (accrued.map Prod.snd).sum :=
      List.single_le_sum (fun _ _ => Nat.zero_le _) _ (List.mem_map_of_mem he)
    split
    · rfl
    · next hne =>
      rw [share]
      split
      · rfl
      · rw [quo, if_neg (by omega)]
        rfl
  rw [allocateDividing, mapM_eq_some_map hpart, Option.map_some, List.filterMap_map]
  rfl

/-- A strategy that accrued nothing gets nothing, so each gets its share. -/
theorem tally_allocate (id : String) : tally id (allocate accrued received) =
    tally id (accrued.map fun e => (e.1, share (accrued.map Prod.snd).sum received e.2)) := by
  rw [allocate]
  dsimp only
  generalize (accrued.map Prod.snd).sum = total
  induction accrued with
  | nil => rfl
  | cons e l ih =>
    rw [List.filterMap_cons, List.map_cons, tally_cons, ← ih]
    by_cases hzero : e.2 = 0
    · simp [hzero, share_zero]
    · simp [hzero, share]

/-- The shares together. -/
theorem sum_allocate : ((allocate accrued received).map Prod.snd).sum =
    ((accrued.map Prod.snd).map (share (accrued.map Prod.snd).sum received)).sum := by
  rw [allocate]
  dsimp only
  generalize (accrued.map Prod.snd).sum = total
  induction accrued with
  | nil => rfl
  | cons e l ih =>
    rw [List.filterMap_cons, List.map_cons, List.map_cons, List.sum_cons, ← ih]
    by_cases hzero : e.2 = 0
    · simp [hzero, share_zero]
    · simp [hzero, share]

/-- What one receipt allocates: nothing is divided by zero, no strategy gets more than it accrued,
all of them at most what was received and what is accrued, and as much but for less than one unit
for each; a receipt that covers the accruals allocates them, and a larger one allocates no less. -/
theorem allocate_shares : allocateDividing accrued received = some (allocate accrued received) ∧
    (∀ id, tally id (allocate accrued received) ≤ tally id accrued) ∧
    ((allocate accrued received).map Prod.snd).sum ≤ min received (accrued.map Prod.snd).sum ∧
    min received (accrued.map Prod.snd).sum ≤
      ((allocate accrued received).map Prod.snd).sum + (accrued.length - 1) ∧
    ((accrued.map Prod.snd).sum ≤ received →
      ∀ id, tally id (allocate accrued received) = tally id accrued) ∧
    ∀ more, received ≤ more →
      ∀ id, tally id (allocate accrued received) ≤ tally id (allocate accrued more) := by
  have hwhole : ∀ id, tally id (accrued.map fun e => (e.1, e.2)) = tally id accrued := fun id =>
    congrArg (tally id) (List.map_id accrued)
  have hlength : (accrued.map Prod.snd).length = accrued.length := List.length_map _
  refine ⟨allocateDividing_eq accrued received, fun id => ?_, ?_, ?_, fun hall id => ?_,
    fun more hmore id => ?_⟩
  · rw [tally_allocate, ← hwhole id]
    exact tally_map_mono (share_le_part _ received)
  · rw [sum_allocate]
    exact sum_share_le _ received
  · rw [sum_allocate, ← hlength]
    exact min_le_sum_share _ received
  · rw [tally_allocate, share_of_le hall]
    exact hwhole id
  · rw [tally_allocate, tally_allocate]
    exact tally_map_mono fun _ => share_mono hmore

/-- Half of what two strategies accrued. -/
theorem allocate_shares_half :
    allocate [("direction", 600000), ("rsi", 400000)] 500000 =
        [("direction", 300000), ("rsi", 200000)] ∧
      tally "rsi" (allocate [("direction", 600000), ("rsi", 400000)] 500000) ≤
        tally "rsi" (allocate [("direction", 600000), ("rsi", 400000)] 2000000) :=
  ⟨by decide, (allocate_shares _ 500000).2.2.2.2.2 2000000 (by decide) "rsi"⟩

/-- Without strategies nothing is left over, which is not less than none. -/
theorem no_share_of_none : ¬ min 500000 (([] : List (String × ℕ)).map Prod.snd).sum -
    ((allocate [] 500000).map Prod.snd).sum < ([] : List (String × ℕ)).length := by decide

end SuperAgent.Platform
