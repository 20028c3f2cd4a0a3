import Mathlib.Data.List.DropRight
import SuperAgent.Core.Text

/-!
# Names that are folded

A name is folded by taking the white space around it away and writing it in
small letters. Folding is idempotent, and either half of it leaves a folded
name as it is.
-/

namespace SuperAgent

variable {s t : String}

/-- What small letters are to a letter is known from the first ninety-one. -/
theorem toLower_cases {P : Char → Char → Prop} (c : Char) (hsame : ∀ c, P c c)
    (hcapital : ∀ n < 91, P (Char.ofNat n) (Char.ofNat n).toLower) : P c c.toLower := by
  by_cases hc : 'A'.val ≤ c.val ∧ c.val ≤ 'Z'.val
  · have hrange : c.toNat < 91 := Nat.lt_succ_of_le (UInt32.le_iff_toNat_le.mp hc.2)
    have hn := hcapital c.toNat hrange
    rwa [Char.ofNat_toNat] at hn
  · rw [show c.toLower = c from dif_neg hc]
    exact hsame c

theorem toLower_toLower (s : String) : toLower (toLower s) = toLower s := by
  have hsmall (c : Char) : c.toLower.toLower = c.toLower := by
    rcases Classical.em (c.toLower = c) with hc | hc
    · rw [hc, hc]
    · exact toLower_cases (P := fun c d => d ≠ c → d.toLower = d) c
        (fun c hc => absurd rfl hc) (by decide) hc
  apply String.toList_inj.mp
  simp [toLower, hsmall]

/-- A capital letter is no more a space than its small one. -/
theorem isSpace_toLower (c : Char) : isSpace c.toLower = isSpace c :=
  toLower_cases (P := fun c d => isSpace d = isSpace c) c (fun _ => rfl) (by decide)

theorem trimSpace_toLower (s : String) : trimSpace (toLower s) = toLower (trimSpace s) := by
  have hdrop : ∀ cs : List Char, (cs.map Char.toLower).dropWhile isSpace =
      (cs.dropWhile isSpace).map Char.toLower := by
    intro cs
    rw [List.dropWhile_map]
    congr 2
    ext c
    exact isSpace_toLower c
  apply String.toList_inj.mp
  simp only [trimSpace, toLower, String.toList_ofList, hdrop, ← List.map_reverse]

theorem trimSpace_trimSpace (s : String) : trimSpace (trimSpace s) = trimSpace s := by
  have hback : ∀ cs : List Char, (cs.reverse.dropWhile isSpace).reverse = cs.rdropWhile isSpace :=
    fun cs => rfl
  have hfront : ∀ cs : List Char, ((cs.dropWhile isSpace).rdropWhile isSpace).dropWhile isSpace =
      (cs.dropWhile isSpace).rdropWhile isSpace := by
    intro cs
    have hprefix := List.rdropWhile_prefix isSpace (l := cs.dropWhile isSpace)
    cases hr : (cs.dropWhile isSpace).rdropWhile isSpace with
    | nil => rfl
    | cons c rest =>
      -- The first letter left is the first that was no space.
      obtain ⟨tail, htail⟩ := hr ▸ hprefix
      have hhead := List.head?_dropWhile_not isSpace cs
      have hfirst : isSpace c = false := by simpa [← htail] using hhead
      simp [hfirst]
  apply String.toList_inj.mp
  simp only [trimSpace, String.toList_ofList, hback, hfront]
  exact List.rdropWhile_idempotent isSpace _

/-- Two texts are the same but for case when their small letters are. -/
theorem equalFold_iff_toLower : equalFold s t ↔ toLower s = toLower t := by
  rw [equalFold, beq_iff_eq, toLower, toLower, String.ofList_inj]

/-- A name as it is kept. -/
def folded (s : String) : String := toLower (trimSpace s)

@[simp] theorem toLower_folded (s : String) : toLower (folded s) = folded s := toLower_toLower _

@[simp] theorem trimSpace_folded (s : String) : trimSpace (folded s) = folded s := by
  rw [folded, trimSpace_toLower, trimSpace_trimSpace]

@[simp] theorem folded_folded (s : String) : folded (folded s) = folded s := by
  rw [folded, trimSpace_folded, toLower_folded]

end SuperAgent
