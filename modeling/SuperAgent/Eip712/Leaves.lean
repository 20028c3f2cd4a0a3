import SuperAgent.Eip712.Atoms

/-!
# The leaves of typed data

A document is encoded leaf after leaf: the values that are no struct, in the
order of their members. Encoding ends at the first leaf that it does not accept.
-/

namespace SuperAgent.Eip712

open Chain

/-- Where a document's encoding comes to a value, or to the lack of one. -/
inductive Leaf
  | unknown (typeName : String)
  | missing (typeName name : String)
  | value (typ : String) (v : Json)

section

variable (td : TypedData) (memory : Memory)

/-- A value that is encoded. -/
def Leaf.Accepts : Leaf → Prop
  | .value typ v => (¬IsArray typ ∧ td.fields typ = none) ∧
      ∃ kind, readType typ = some kind ∧ kind.Accepts memory v
  | _ => False

/-- A value that panics. -/
def Leaf.Overflows : Leaf → Prop
  | .value typ v => (¬IsArray typ ∧ td.fields typ = none) ∧
      ∃ kind, readType typ = some kind ∧ kind.Overflows memory v
  | _ => False

/-- A value of one of the standard's own types. -/
def Leaf.Proper : Leaf → Prop
  | .value typ _ => ∃ atom, Atom.name atom = typ
  | _ => False

mutual

/-- The leaves of a value of a type. -/
def fieldLeaves (typ : String) (v : Json) : List Leaf :=
  if IsArray typ ∨ td.fields typ = none then [.value typ v]
  else match v with
    | .object m => structLeaves typ m
    | v => [.value typ v]
termination_by (sizeOf v, 0, 0)
decreasing_by
  left
  rw [Json.object.sizeOf_spec]
  omega

/-- The leaves of a struct. -/
def structLeaves (typeName : String) (value : List (String × Json)) : List Leaf :=
  match td.fields typeName with
  | none => [.unknown typeName]
  | some fields => dataLeaves typeName value fields
termination_by (sizeOf value, 1, 0)
decreasing_by
  right
  left
  decide

/-- The leaves of a struct's members. -/
def dataLeaves (typeName : String) (value : List (String × Json)) : List Field → List Leaf
  | [] => []
  | f :: fields =>
    (match _h : value.lookup f.name with
      | none => [.missing typeName f.name]
      | some v => fieldLeaves f.type v) ++ dataLeaves typeName value fields
termination_by fields => (sizeOf value, 0, fields.length)
decreasing_by
  · left
    exact sizeOf_lookup _h
  · right
    right
    exact Nat.lt_succ_self _

end

/-- The leaves of a document. -/
def TypedData.leaves : List Leaf :=
  structLeaves td "EIP712Domain" td.domain ++ structLeaves td td.primaryType td.message

/-- The first leaf that is not accepted is such a one. -/
def First (p : Leaf → Prop) (ls : List Leaf) : Prop :=
  ∃ pre l post, ls = pre ++ l :: post ∧ (∀ x ∈ pre, x.Accepts td memory) ∧ p l

/-- What an outcome says of the leaves before it. -/
def Fits {α : Type} (ls : List Leaf) : Except Stop α → Prop
  | .ok _ => ∀ l ∈ ls, l.Accepts td memory
  | .error (.fault _) =>
    First td memory (fun l => ¬l.Accepts td memory ∧ ¬l.Overflows td memory) ls
  | .error .panic => First td memory (fun l => l.Overflows td memory) ls

end

variable {α β : Type} {td : TypedData} {keccak : Hasher} {memory : Memory} {typ name : String}
  {v : Json} {value : List (String × Json)} {w : Bytes32} {ls ls' : List Leaf} {l : Leaf}

/-! ## Outcomes one after another -/

theorem First.head {p : Leaf → Prop} (h : p l) : First td memory p (l :: ls) :=
  ⟨[], l, ls, rfl, List.forall_mem_nil _, h⟩

theorem Fits.singleton {r : Except Stop α}
    (h : Settles (l.Accepts td memory) (l.Overflows td memory) r) : Fits td memory [l] r := by
  cases r with
  | ok a => exact List.forall_mem_singleton.mpr h
  | error stop =>
    cases stop with
    | fault e => exact First.head h
    | panic => exact First.head h

theorem First.append {p : Leaf → Prop} (h : First td memory p ls) :
    First td memory p (ls ++ ls') := by
  obtain ⟨pre, l, post, rfl, hpre, hl⟩ := h
  exact ⟨pre, l, post ++ ls', List.append_assoc .., hpre, hl⟩

theorem First.prepend {p : Leaf → Prop} (hls : ∀ l ∈ ls, l.Accepts td memory)
    (h : First td memory p ls') : First td memory p (ls ++ ls') := by
  obtain ⟨pre, l, post, rfl, hpre, hl⟩ := h
  refine ⟨ls ++ pre, l, post, (List.append_assoc ..).symm, ?_, hl⟩
  exact List.forall_mem_append.mpr ⟨hls, hpre⟩

/-- What comes after is reached where all before is accepted. -/
theorem Fits.bind {r : Except Stop α} {f : α → Except Stop β} (h : Fits td memory ls r)
    (h' : ∀ a, r = .ok a → Fits td memory ls' (f a)) : Fits td memory (ls ++ ls') (r >>= f) := by
  cases r with
  | ok a =>
    have hrest := h' a rfl
    change Fits td memory _ (f a)
    cases hf : f a with
    | ok b =>
      rw [hf] at hrest
      exact List.forall_mem_append.mpr ⟨h, hrest⟩
    | error stop =>
      rw [hf] at hrest
      cases stop with
      | fault e => exact First.prepend h hrest
      | panic => exact First.prepend h hrest
  | error stop =>
    cases stop with
    | fault e => exact First.append h
    | panic => exact First.append h

theorem Fits.nil (a : α) : Fits td memory [] (pure a) := List.forall_mem_nil _

theorem Fits.map {r : Except Stop α} {f : α → β} (h : Fits td memory ls r) :
    Fits td memory ls (r >>= fun a => pure (f a)) := by
  have hbind := h.bind fun a _ => Fits.nil (f a)
  rwa [List.append_nil] at hbind

theorem Fits.wrap {r : Except Stop α} {within : Fault → Fault} (h : Fits td memory ls r) :
    Fits td memory ls (r.mapError (Stop.wrap within)) := by
  cases r with
  | ok a => exact h
  | error stop => cases stop <;> exact h

/-! ## Members and values -/

/-- What holds of the members of objects holds of every value. -/
@[elab_as_elim]
theorem Json.induction {motive : Json → Prop}
    (object : ∀ m, (∀ name v, m.lookup name = some v → motive v) → motive (.object m))
    (other : ∀ v, (∀ m, v ≠ .object m) → motive v) (v : Json) : motive v := by
  induction hn : sizeOf v using Nat.strong_induction_on generalizing v with
  | _ n ih =>
    subst hn
    cases v with
    | object m =>
      refine object m fun name v hv => ih (sizeOf v) ?_ v rfl
      have hlt := sizeOf_lookup hv
      rw [Json.object.sizeOf_spec]
      omega
    | _ => exact other _ fun m h => Json.noConfusion h

theorem encodeData_missing {typeName : String} {f : Field} {fields : List Field}
    (h : value.lookup f.name = none) :
    encodeData td keccak memory typeName value (f :: fields) =
      .error (.fault (.missing typeName f.name)) := by
  rw [encodeData]
  split
  · rfl
  · next hv => cases h.symm.trans hv

theorem encodeData_present {typeName : String} {f : Field} {fields : List Field}
    (h : value.lookup f.name = some v) :
    encodeData td keccak memory typeName value (f :: fields) = (do
      let word ← (encodeField td keccak memory f.type v).mapError
        (Stop.wrap (.field typeName f.name))
      let out ← encodeData td keccak memory typeName value fields
      return word.bytes ++ out) := by
  rw [encodeData]
  split
  · next hv => cases h.symm.trans hv
  · next v' hv =>
    cases h.symm.trans hv
    rfl

theorem dataLeaves_missing {typeName : String} {f : Field} {fields : List Field}
    (h : value.lookup f.name = none) :
    dataLeaves td typeName value (f :: fields) =
      [.missing typeName f.name] ++ dataLeaves td typeName value fields := by
  rw [dataLeaves]
  split
  · rfl
  · next hv => cases h.symm.trans hv

theorem dataLeaves_present {typeName : String} {f : Field} {fields : List Field}
    (h : value.lookup f.name = some v) :
    dataLeaves td typeName value (f :: fields) =
      fieldLeaves td f.type v ++ dataLeaves td typeName value fields := by
  rw [dataLeaves]
  split
  · next hv => cases h.symm.trans hv
  · next v' hv =>
    cases h.symm.trans hv
    rfl

/-! ## The outcome of a document -/

/-- A value that is no struct's is its own leaf. -/
theorem encodeAtom_settles (harray : ¬IsArray typ) (hstruct : td.fields typ = none) :
    Settles ((Leaf.value typ v).Accepts td memory) ((Leaf.value typ v).Overflows td memory)
      (encodeAtom keccak memory typ v) := by
  rw [encodeAtom]
  cases hkind : readType typ with
  | none => simp [Settles, Leaf.Accepts, Leaf.Overflows, hkind]
  | some kind =>
    refine (Kind.encode_settles kind).congr ?_ ?_
    · simp [Leaf.Accepts, harray, hstruct, hkind]
    · simp [Leaf.Overflows, harray, hstruct, hkind]

/-- An array, or what is no struct where one should be. -/
theorem Leaf.refused (h : IsArray typ ∨ td.fields typ ≠ none) :
    ¬(Leaf.value typ v).Accepts td memory ∧ ¬(Leaf.value typ v).Overflows td memory := by
  have hnot : ¬(¬IsArray typ ∧ td.fields typ = none) := by tauto
  exact ⟨fun hl => hnot hl.1, fun hl => hnot hl.1⟩

/-- The members of a value that encoding says enough about. -/
def MembersFit (td : TypedData) (keccak : Hasher) (memory : Memory)
    (value : List (String × Json)) : Prop :=
  ∀ name v, value.lookup name = some v →
    ∀ typ, Fits td memory (fieldLeaves td typ v) (encodeField td keccak memory typ v)

theorem encodeData_fits (h : MembersFit td keccak memory value) (fields : List Field) :
    Fits td memory (dataLeaves td name value fields)
      (encodeData td keccak memory name value fields) := by
  induction fields with
  | nil =>
    rw [dataLeaves, encodeData]
    exact Fits.nil _
  | cons f fields ih =>
    cases hv : value.lookup f.name with
    | none =>
      rw [dataLeaves_missing hv, encodeData_missing hv]
      exact First.head ⟨id, id⟩
    | some v =>
      rw [dataLeaves_present hv, encodeData_present hv]
      exact (h f.name v hv f.type).wrap.bind fun word _ => ih.map

theorem hashStruct_fits (h : MembersFit td keccak memory value) :
    Fits td memory (structLeaves td name value) (hashStruct td keccak memory name value) := by
  rw [structLeaves, hashStruct, encodeType]
  cases hfields : td.fields name with
  | none => exact First.head ⟨id, id⟩
  | some fields => exact (encodeData_fits h fields).map

/-- The leaves of a value that is no object, or of a type that is no struct. -/
theorem fieldLeaves_value (h : IsArray typ ∨ td.fields typ = none ∨ ∀ m, v ≠ .object m) :
    fieldLeaves td typ v = [.value typ v] := by
  unfold fieldLeaves
  split
  · rfl
  · next hno =>
    cases v with
    | object m => exact absurd rfl ((h.resolve_left fun h => hno (.inl h)).resolve_left
        (fun h => hno (.inr h)) m)
    | _ => rfl

theorem fieldLeaves_object {m : List (String × Json)} (harray : ¬IsArray typ)
    (hstruct : td.fields typ ≠ none) : fieldLeaves td typ (.object m) = structLeaves td typ m := by
  rw [fieldLeaves, if_neg (not_or.mpr ⟨harray, hstruct⟩)]

theorem encodeField_object {m : List (String × Json)} (harray : ¬IsArray typ)
    (hstruct : td.fields typ ≠ none) :
    encodeField td keccak memory typ (.object m) = hashStruct td keccak memory typ m := by
  rw [encodeField, if_neg harray, if_pos (Option.isSome_iff_ne_none.mpr hstruct)]

/-- A value that is no struct's is settled by itself. -/
theorem encodeField_settles (h : IsArray typ ∨ td.fields typ = none ∨ ∀ m, v ≠ .object m) :
    Settles ((Leaf.value typ v).Accepts td memory) ((Leaf.value typ v).Overflows td memory)
      (encodeField td keccak memory typ v) := by
  unfold encodeField
  by_cases harray : IsArray typ
  · rw [if_pos harray]
    exact Leaf.refused (.inl harray)
  rw [if_neg harray]
  by_cases hstruct : td.fields typ = none
  · rw [if_neg (by simp [hstruct])]
    exact encodeAtom_settles harray hstruct
  rw [if_pos (Option.isSome_iff_ne_none.mpr hstruct)]
  cases v with
  | object m => exact absurd rfl ((h.resolve_left harray).resolve_left hstruct m)
  | _ => exact Leaf.refused (.inr hstruct)

/-- Encoding a value comes to an end at the first leaf that is not accepted. -/
theorem encodeField_fits (v : Json) (typ : String) :
    Fits td memory (fieldLeaves td typ v) (encodeField td keccak memory typ v) := by
  induction v using Json.induction generalizing typ with
  | object m ih =>
    by_cases hleaf : IsArray typ ∨ td.fields typ = none
    · rw [fieldLeaves_value (hleaf.imp_right .inl)]
      exact Fits.singleton (encodeField_settles (hleaf.imp_right .inl))
    · obtain ⟨harray, hstruct⟩ := not_or.mp hleaf
      rw [fieldLeaves_object harray hstruct, encodeField_object harray hstruct]
      exact hashStruct_fits ih
  | other v hv =>
    rw [fieldLeaves_value (.inr (.inr hv))]
    exact Fits.singleton (encodeField_settles (.inr (.inr hv)))

theorem membersFit (value : List (String × Json)) : MembersFit td keccak memory value :=
  fun _ v _ => encodeField_fits v

/-- A document's digest ends at the first leaf that is not accepted. -/
theorem digest_fits (td : TypedData) (keccak : Hasher) (memory : Memory) :
    Fits td memory td.leaves (digest td keccak memory) :=
  (hashStruct_fits (membersFit _)).wrap.bind fun _ _ => (hashStruct_fits (membersFit _)).wrap.map

end SuperAgent.Eip712
