import Mathlib.Data.Finset.Sort
import Mathlib.Data.String.Basic
import SuperAgent.Core.Closure
import SuperAgent.Eip712.Values

/-!
# Types of typed data

A struct type is written with its members, and after it every struct type it
refers to, in alphabetical order. Types may refer to one another in circles.
-/

namespace SuperAgent.Eip712

open Closure

/-- One member of a struct type. -/
structure Field where
  name : String
  type : String

/-- A typed-data document. -/
structure TypedData where
  types : List (String × List Field)
  primaryType : String
  domain : List (String × Json)
  message : List (String × Json)

/-- The members of a struct type. -/
def TypedData.fields (td : TypedData) (name : String) : Option (List Field) := td.types.lookup name

/-- The type of an array, of a length or of any. -/
def IsArray (typ : String) : Prop := [']'] <:+ typ.toList

instance {typ : String} : Decidable (IsArray typ) := inferInstanceAs (Decidable (_ <:+ _))

/-- The type of an array's elements. Any other type is its own. -/
def elementType (typ : String) : String :=
  if ['[', ']'] <:+ typ.toList then String.ofList (typ.toList.take (typ.toList.length - 2)) else typ

/-- The struct types a type needs, itself included, after those seen before. -/
def collectDeps (td : TypedData) : ℕ → String → List String → Option (List String)
  | 0, _, _ => none
  | fuel + 1, typeName, seen =>
    if typeName ∈ seen then some seen
    else match td.fields typeName with
      | none => some seen -- a primitive
      | some fields =>
        fields.foldlM (fun seen f =>
          if (td.fields (elementType f.type)).isSome then
            collectDeps td fuel (elementType f.type) seen
          else some seen) (typeName :: seen)

/-- A struct type with its members. -/
def structText (name : String) (fields : List Field) : String :=
  name ++ "(" ++ ",".intercalate (fields.map fun f => f.type ++ " " ++ f.name) ++ ")"

/-- The struct types a type refers to, by name. -/
def TypedData.deps (td : TypedData) (typeName : String) : List String :=
  let seen := (collectDeps td (td.types.length + 1) typeName []).getD []
  (seen.filter (· ≠ typeName)).insertionSort (· ≤ ·)

/-- A type and, after it, each struct type it refers to. -/
def encodeType (td : TypedData) (typeName : String) : Except Fault String :=
  match td.fields typeName with
  | none => .error (.unknownType typeName)
  | some _ =>
    let names := typeName :: td.deps typeName
    .ok (String.join (names.map fun n => structText n ((td.fields n).getD [])))

/-! ## What a type refers to -/

/-- A member of one struct type is of another. -/
def Refers (td : TypedData) (a b : String) : Prop :=
  (∃ fields, td.fields a = some fields ∧ ∃ f ∈ fields, f.type = b) ∧ td.fields b ≠ none

open Classical in
/-- The struct types a type refers to, and those that they refer to. -/
noncomputable def referenced (td : TypedData) (name : String) : Finset String :=
  (td.types.map Prod.fst).toFinset.filter fun b =>
    b ≠ name ∧ Relation.ReflTransGen (Refers td) name b

/-- A type as it is hashed. -/
noncomputable def typeEncoding (td : TypedData) (name : String) : String :=
  String.join ((name :: (referenced td name).sort (· ≤ ·)).map fun n =>
    structText n ((td.fields n).getD []))

/-- No struct type that a type refers to has an array for a member. -/
def ArrayFree (td : TypedData) (name : String) : Prop :=
  ∀ b, Relation.ReflTransGen (Refers td) name b →
    ∀ fields, td.fields b = some fields → ∀ f ∈ fields, ¬IsArray f.type

/-! ## What the search finds -/

/-- The struct types of a struct type's members. -/
def members (td : TypedData) (name : String) : Option (List String) :=
  (td.fields name).map fun fields =>
    (fields.map fun f => elementType f.type).filter fun typ => (td.fields typ).isSome

variable {td : TypedData} {name a b : String} {out : List String}

/-- Members that are not structs are passed over. -/
theorem foldlM_members {fuel : ℕ} {fields : List Field} {seen : List String}
    (h : ∀ name seen, collectDeps td fuel name seen = visit (members td) fuel name seen) :
    (fields.foldlM (fun seen f =>
      if (td.fields (elementType f.type)).isSome then collectDeps td fuel (elementType f.type) seen
      else some seen) seen) =
    ((fields.map fun f => elementType f.type).filter fun typ => (td.fields typ).isSome).foldlM
      (fun seen b => visit (members td) fuel b seen) seen := by
  induction fields generalizing seen with
  | nil => rfl
  | cons f fields ih =>
    rw [List.foldlM_cons, List.map_cons, List.filter_cons]
    by_cases hstruct : (td.fields (elementType f.type)).isSome
    · rw [if_pos hstruct, if_pos hstruct, List.foldlM_cons, h]
      exact congrArg (Option.bind _) (funext fun seen => ih)
    · rw [if_neg hstruct, if_neg hstruct]
      exact ih

theorem collectDeps_eq_visit (td : TypedData) (fuel : ℕ) (name : String) (seen : List String) :
    collectDeps td fuel name seen = visit (members td) fuel name seen := by
  induction fuel generalizing name seen with
  | zero => rfl
  | succ fuel ih =>
    rw [collectDeps, visit, members]
    cases hfields : td.fields name with
    | none => rfl
    | some fields => exact if_congr Iff.rfl rfl (foldlM_members ih)

theorem members_ne_none : members td name ≠ none ↔ td.fields name ≠ none := by
  rw [members, ne_eq, ne_eq, Option.map_eq_none_iff]

theorem mem_types (h : td.fields name ≠ none) : name ∈ td.types.map Prod.fst := by
  have hsome : (td.types.lookup name).isSome := Option.isSome_iff_ne_none.mpr h
  obtain ⟨p, hp, heq⟩ := List.lookup_isSome_iff.mp hsome
  exact List.mem_map.mpr ⟨p, hp, (eq_of_beq heq).symm⟩

/-- The search goes deep enough. -/
theorem collectDeps_isSome (td : TypedData) (name : String) :
    (collectDeps td (td.types.length + 1) name []).isSome := by
  rw [collectDeps_eq_visit]
  refine visit_isSome (fun b hb => mem_types (members_ne_none.mp hb)) ?_
  have hle := List.length_filter_le (fun b => decide (b ∉ ([] : List String)))
    (td.types.map Prod.fst)
  rw [List.length_map] at hle
  exact Nat.lt_succ_of_le hle

theorem elementType_eq {typ : String} (h : ¬IsArray typ) : elementType typ = typ := by
  refine if_neg fun hsuffix => h ?_
  exact (List.suffix_cons '[' [']']).trans hsuffix

/-- Where there is no array, the members of a struct type are those it refers to. -/
theorem link_iff (h : ∀ fields, td.fields a = some fields → ∀ f ∈ fields, ¬IsArray f.type) :
    Link (members td) a b ↔ Refers td a b := by
  constructor
  · rintro ⟨⟨bs, hbs, hb⟩, hnode⟩
    refine ⟨?_, members_ne_none.mp hnode⟩
    obtain ⟨fields, hfields, rfl⟩ := Option.map_eq_some_iff.mp hbs
    obtain ⟨f, hf, rfl⟩ := List.mem_map.mp (List.mem_filter.mp hb).1
    exact ⟨fields, hfields, f, hf, (elementType_eq (h fields hfields f hf)).symm⟩
  · rintro ⟨⟨fields, hfields, f, hf, rfl⟩, hnode⟩
    have helement := elementType_eq (h fields hfields f hf)
    refine ⟨⟨_, congrArg (Option.map _) hfields, ?_⟩, members_ne_none.mpr hnode⟩
    refine List.mem_filter.mpr ⟨List.mem_map.mpr ⟨f, hf, helement⟩, ?_⟩
    exact Option.isSome_iff_ne_none.mpr hnode

/-- Without arrays the search finds what a type refers to. -/
theorem reaches_iff (h : ArrayFree td name) :
    Reaches (members td) name b ↔ Relation.ReflTransGen (Refers td) name b := by
  constructor
  · intro hreaches
    induction hreaches with
    | refl => exact .refl
    | tail _ hlink ih => exact ih.tail ((link_iff (h _ ih)).mp hlink)
  · intro hreaches
    induction hreaches with
    | refl => exact .refl
    | tail hprefix hrefers ih => exact ih.tail ((link_iff (h _ hprefix)).mpr hrefers)

open Classical in
theorem mem_referenced :
    b ∈ referenced td name ↔ b ≠ name ∧ Relation.ReflTransGen (Refers td) name b := by
  rw [referenced, Finset.mem_filter, List.mem_toFinset]
  constructor
  · exact fun hb => hb.2
  · rintro ⟨hne, hreaches⟩
    refine ⟨mem_types ?_, hne, hreaches⟩
    rcases Relation.ReflTransGen.cases_tail hreaches with heq | ⟨c, -, hrefers⟩
    · exact absurd heq hne
    · exact hrefers.2

/-- Without arrays, the types after a type are those it refers to in alphabetical order. -/
theorem deps_eq (hname : td.fields name ≠ none) (h : ArrayFree td name) :
    td.deps name = (referenced td name).sort (· ≤ ·) := by
  obtain ⟨out, hout⟩ := Option.isSome_iff_exists.mp (collectDeps_isSome td name)
  rw [TypedData.deps, hout, Option.getD_some]
  rw [collectDeps_eq_visit] at hout
  have hnodup : (out.filter (· ≠ name)).Nodup := (nodup_visit hout).filter _
  have hmem : ∀ b, b ∈ out.filter (· ≠ name) ↔ b ∈ referenced td name := by
    intro b
    rw [List.mem_filter, decide_eq_true_eq, mem_visit (members_ne_none.mpr hname) hout,
      reaches_iff h, mem_referenced, and_comm]
  have hperm : ((out.filter (· ≠ name)).insertionSort (· ≤ ·)).Perm
      ((referenced td name).sort (· ≤ ·)) := by
    refine (List.perm_insertionSort (· ≤ ·) _).trans ?_
    refine (List.perm_ext_iff_of_nodup hnodup (Finset.sort_nodup _ _)).mpr fun b => ?_
    rw [hmem, Finset.mem_sort]
  exact hperm.eq_of_pairwise' (List.pairwise_insertionSort _ _) (Finset.pairwise_sort _ _)

/-- Without arrays a type is encoded as it should be. -/
theorem encodeType_eq (hname : td.fields name ≠ none) (h : ArrayFree td name) :
    encodeType td name = .ok (typeEncoding td name) := by
  rw [encodeType, typeEncoding, ← deps_eq hname h]
  cases hfields : td.fields name with
  | none => exact absurd hfields hname
  | some fields => rfl

end SuperAgent.Eip712
