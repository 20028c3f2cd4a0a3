import Mathlib.Data.List.Nodup
import Mathlib.Logic.Relation

/-!
# What a graph reaches

A search that goes as deep as it can and visits nothing twice. What it has seen
from a node with nothing seen before is the nodes that can be reached from it.
-/

namespace SuperAgent.Closure

variable {α : Type*}

/-- Everything seen once a place has been visited. A place without successors is no node. -/
def visit [DecidableEq α] (next : α → Option (List α)) : ℕ → α → List α → Option (List α)
  | 0, _, _ => none
  | fuel + 1, a, seen =>
    if a ∈ seen then some seen
    else match next a with
      | none => some seen
      | some bs => bs.foldlM (fun seen b => visit next fuel b seen) (a :: seen)

/-- An edge between nodes. -/
def Link (next : α → Option (List α)) (a b : α) : Prop :=
  (∃ bs, next a = some bs ∧ b ∈ bs) ∧ next b ≠ none

abbrev Reaches (next : α → Option (List α)) : α → α → Prop := Relation.ReflTransGen (Link next)

/-- What a visit adds to what was seen: nodes that some place reaches, with all they lead to. -/
structure Grows (next : α → Option (List α)) (begun : α → Prop) (seen out : List α) : Prop where
  keeps : seen ⊆ out
  nodup : seen.Nodup → out.Nodup
  closed : ∀ b ∈ out, b ∉ seen → ∀ c, Link next b c → c ∈ out
  reached : ∀ b ∈ out, b ∉ seen → ∃ a, begun a ∧ next a ≠ none ∧ Reaches next a b

variable {next : α → Option (List α)} {fuel : ℕ} {a b : α} {bs seen mid out : List α}
  {begun begun' : α → Prop}

theorem Grows.refl : Grows next begun seen seen where
  keeps := List.Subset.refl _
  nodup h := h
  closed _ hb hnew := absurd hb hnew
  reached _ hb hnew := absurd hb hnew

theorem Grows.trans (h : Grows next begun seen mid) (h' : Grows next begun mid out) :
    Grows next begun seen out where
  keeps := List.Subset.trans h.keeps h'.keeps
  nodup hn := h'.nodup (h.nodup hn)
  closed b hb hnew c hc := by
    by_cases hmid : b ∈ mid
    · exact h'.keeps (h.closed b hmid hnew c hc)
    · exact h'.closed b hb hmid c hc
  reached b hb hnew := by
    by_cases hmid : b ∈ mid
    · exact h.reached b hmid hnew
    · exact h'.reached b hb hmid

theorem Grows.mono (h : Grows next begun seen out) (hle : ∀ a, begun a → begun' a) :
    Grows next begun' seen out where
  keeps := h.keeps
  nodup := h.nodup
  closed := h.closed
  reached b hb hnew := by
    obtain ⟨a, ha, hreached⟩ := h.reached b hb hnew
    exact ⟨a, hle a ha, hreached⟩

variable [DecidableEq α]

/-- Visiting places one after the other sees all of them that are nodes. -/
theorem grows_foldlM
    (hvisit : ∀ a seen out, visit next fuel a seen = some out →
      Grows next (· = a) seen out ∧ (next a ≠ none → a ∈ out))
    (h : bs.foldlM (fun seen b => visit next fuel b seen) seen = some out) :
    Grows next (· ∈ bs) seen out ∧ ∀ b ∈ bs, next b ≠ none → b ∈ out := by
  induction bs generalizing seen with
  | nil =>
    cases h
    exact ⟨.refl, fun b hb => by cases hb⟩
  | cons a bs ih =>
    rw [List.foldlM_cons] at h
    obtain ⟨mid, hmid, hrest⟩ := Option.bind_eq_some_iff.mp h
    obtain ⟨hgrows, ha⟩ := hvisit a seen mid hmid
    obtain ⟨hgrows', hbs⟩ := ih hrest
    have hfirst : Grows next (· ∈ a :: bs) seen mid :=
      hgrows.mono fun b hb => hb ▸ List.mem_cons_self
    have hothers : Grows next (· ∈ a :: bs) mid out :=
      hgrows'.mono fun b hb => List.mem_cons_of_mem a hb
    refine ⟨hfirst.trans hothers, fun b hb hnode => ?_⟩
    rcases List.mem_cons.mp hb with rfl | hb
    · exact hothers.keeps (ha hnode)
    · exact hbs b hb hnode

/-- A visit sees the place if it is a node, and what it reaches through nodes not seen before. -/
theorem grows_visit (fuel : ℕ) (a : α) (seen out : List α) (h : visit next fuel a seen = some out) :
    Grows next (· = a) seen out ∧ (next a ≠ none → a ∈ out) := by
  induction fuel generalizing a seen out with
  | zero => cases h
  | succ fuel ih =>
    rw [visit] at h
    split at h
    · next hseen =>
      cases h
      exact ⟨.refl, fun _ => hseen⟩
    · next hseen =>
      split at h
      · next hnone =>
        cases h
        exact ⟨.refl, fun hnode => absurd hnone hnode⟩
      · next bs hbs =>
        obtain ⟨hgrows, hall⟩ := grows_foldlM ih h
        have hnode : next a ≠ none := by
          rw [hbs]
          exact Option.some_ne_none bs
        have ha : a ∈ out := hgrows.keeps List.mem_cons_self
        refine ⟨⟨?_, ?_, ?_, ?_⟩, fun _ => ha⟩
        · exact fun b hb => hgrows.keeps (List.mem_cons_of_mem a hb)
        · exact fun hn => hgrows.nodup (List.nodup_cons.mpr ⟨hseen, hn⟩)
        · intro b hb hnew c hc
          by_cases hba : b = a
          · subst hba
            obtain ⟨⟨cs, hcs, hmem⟩, hnodec⟩ := hc
            cases hbs.symm.trans hcs
            exact hall c hmem hnodec
          · exact hgrows.closed b hb (fun hmem => (List.mem_cons.mp hmem).elim hba hnew) c hc
        · intro b hb hnew
          by_cases hba : b = a
          · exact ⟨a, rfl, hnode, hba ▸ .refl⟩
          · obtain ⟨c, hc, hnodec, hreaches⟩ :=
              hgrows.reached b hb fun hmem => (List.mem_cons.mp hmem).elim hba hnew
            exact ⟨a, rfl, hnode, hreaches.head ⟨⟨bs, hbs, hc⟩, hnodec⟩⟩

/-- With nothing seen before, a visit of a node sees what it reaches. -/
theorem mem_visit (hnode : next a ≠ none) (h : visit next fuel a [] = some out) :
    b ∈ out ↔ Reaches next a b := by
  obtain ⟨hgrows, ha⟩ := grows_visit fuel a [] out h
  constructor
  · intro hb
    obtain ⟨c, rfl, -, hreaches⟩ := hgrows.reached b hb List.not_mem_nil
    exact hreaches
  · intro hreaches
    induction hreaches with
    | refl => exact ha hnode
    | tail _ hlink ih => exact hgrows.closed _ ih List.not_mem_nil _ hlink

theorem nodup_visit (h : visit next fuel a [] = some out) : out.Nodup :=
  (grows_visit fuel a [] out h).1.nodup List.nodup_nil

/-! ## Going deep enough -/

/-- The nodes that have not been seen. -/
def left (nodes seen : List α) : ℕ := (nodes.filter (· ∉ seen)).length

theorem left_le {nodes : List α} (hsub : seen ⊆ out) : left nodes out ≤ left nodes seen := by
  refine List.Sublist.length_le (List.monotone_filter_right nodes fun b hb => ?_)
  rw [decide_eq_true_eq] at hb ⊢
  exact fun hseen => hb (hsub hseen)

theorem left_cons_lt {nodes : List α} (ha : a ∈ nodes) (hnew : a ∉ seen) :
    left nodes (a :: seen) < left nodes seen := by
  have hfilter : nodes.filter (· ∉ a :: seen) = (nodes.filter (· ∉ seen)).filter (· ≠ a) := by
    rw [List.filter_filter]
    refine List.filter_congr fun b _ => ?_
    simp only [List.mem_cons, not_or, Bool.decide_and]
  rw [left, hfilter]
  refine List.length_filter_lt_length_iff_exists.mpr ⟨a, ?_, ?_⟩
  · exact List.mem_filter.mpr ⟨ha, decide_eq_true hnew⟩
  · rw [decide_eq_true_eq]
    exact fun hne => hne rfl

theorem foldlM_isSome {nodes : List α}
    (hvisit : ∀ a seen, left nodes seen < fuel → (visit next fuel a seen).isSome)
    (hfuel : left nodes seen < fuel) :
    (bs.foldlM (fun seen b => visit next fuel b seen) seen).isSome := by
  induction bs generalizing seen with
  | nil => rfl
  | cons a bs ih =>
    obtain ⟨mid, hmid⟩ := Option.isSome_iff_exists.mp (hvisit a seen hfuel)
    have hkeeps := (grows_visit fuel a seen mid hmid).1.keeps
    rw [List.foldlM_cons, hmid]
    exact ih (Nat.lt_of_le_of_lt (left_le hkeeps) hfuel)

/-- As many calls inside one another as there are nodes are enough. -/
theorem visit_isSome {nodes : List α} (hnodes : ∀ b, next b ≠ none → b ∈ nodes)
    (hfuel : left nodes seen < fuel) : (visit next fuel a seen).isSome := by
  induction fuel generalizing a seen with
  | zero => exact absurd hfuel (Nat.not_lt_zero _)
  | succ fuel ih =>
    rw [visit]
    split
    · rfl
    · next hseen =>
      split
      · rfl
      · next bs hbs =>
        have hnode : next a ≠ none := by
          rw [hbs]
          exact Option.some_ne_none bs
        have hless := left_cons_lt (hnodes a hnode) hseen
        exact foldlM_isSome (fun b seen' hlt => ih hlt) (by omega)

end SuperAgent.Closure
