import SuperAgent.Eip712.Leaves

/-!
# The digest is the standard's

What is encoded has no arrays in it, so its types are encoded as they should be.
With the standard's own types at its leaves, the digest is the document's. With
any other type at a leaf there is no such digest.
-/

namespace SuperAgent.Eip712

open Chain

variable {td : TypedData} {keccak : Hasher} {memory : Memory} {typ name : String} {v : Json}
  {value : List (String × Json)} {fields : List Field} {w : Bytes32} {bs : List UInt8}

/-! ## What has been encoded -/

theorem hashStruct_ok (h : hashStruct td keccak memory name value = .ok w) :
    ∃ fields enc data, td.fields name = some fields ∧ encodeType td name = .ok enc ∧
      encodeData td keccak memory name value fields = .ok data ∧
      w = keccak ((keccak (utf8 enc)).bytes ++ data) := by
  rw [hashStruct] at h
  obtain ⟨enc, henc, h⟩ := eq_ok_of_bind h
  obtain ⟨data, hdata, h⟩ := eq_ok_of_bind h
  have henc := eq_ok_of_mapError henc
  cases hfields : td.fields name with
  | none =>
    rw [encodeType, hfields] at henc
    cases henc
  | some fields =>
    rw [hfields] at hdata
    exact ⟨fields, enc, data, rfl, henc, hdata, (Except.ok.inj h).symm⟩

theorem encodeField_ok (h : encodeField td keccak memory typ v = .ok w) :
    ¬IsArray typ ∧ ((td.fields typ = none ∧ encodeAtom keccak memory typ v = .ok w) ∨
      td.fields typ ≠ none ∧ ∃ m, v = .object m ∧ hashStruct td keccak memory typ m = .ok w) := by
  unfold encodeField at h
  by_cases harray : IsArray typ
  · rw [if_pos harray] at h
    cases h
  rw [if_neg harray] at h
  refine ⟨harray, ?_⟩
  by_cases hstruct : td.fields typ = none
  · rw [if_neg (by simp [hstruct])] at h
    exact .inl ⟨hstruct, h⟩
  rw [if_pos (Option.isSome_iff_ne_none.mpr hstruct)] at h
  cases v with
  | object m => exact .inr ⟨hstruct, m, rfl, h⟩
  | _ => cases h

theorem encodeData_ok {f : Field}
    (h : encodeData td keccak memory name value (f :: fields) = .ok bs) :
    ∃ v word out, value.lookup f.name = some v ∧
      encodeField td keccak memory f.type v = .ok word ∧
      encodeData td keccak memory name value fields = .ok out ∧ bs = word.bytes ++ out := by
  cases hv : value.lookup f.name with
  | none =>
    rw [encodeData_missing hv] at h
    cases h
  | some v =>
    rw [encodeData_present hv] at h
    obtain ⟨word, hword, h⟩ := eq_ok_of_bind h
    obtain ⟨out, hout, h⟩ := eq_ok_of_bind h
    exact ⟨v, word, out, rfl, eq_ok_of_mapError hword, hout, (Except.ok.inj h).symm⟩

theorem member_ok (h : encodeData td keccak memory name value fields = .ok bs) :
    ∀ f ∈ fields, ∃ v word, value.lookup f.name = some v ∧
      encodeField td keccak memory f.type v = .ok word := by
  induction fields generalizing bs with
  | nil => exact List.forall_mem_nil _
  | cons f fields ih =>
    obtain ⟨v, word, out, hv, hword, hout, -⟩ := encodeData_ok h
    exact List.forall_mem_cons.mpr ⟨⟨v, word, hv, hword⟩, ih hout⟩

/-! ## Arrays -/

theorem arrayFree_of (hfields : td.fields name = some fields)
    (h : ∀ f ∈ fields, ¬IsArray f.type ∧ (td.fields f.type ≠ none → ArrayFree td f.type)) :
    ArrayFree td name := by
  intro b hreaches fs hfs
  rcases Relation.ReflTransGen.cases_head hreaches with rfl | ⟨c, hrefers, hrest⟩
  · cases hfields.symm.trans hfs
    exact fun f hf => (h f hf).1
  · obtain ⟨⟨fs', hfs', f, hf, rfl⟩, hnode⟩ := hrefers
    cases hfields.symm.trans hfs'
    exact (h f hf).2 hnode b hrest fs hfs

/-- What is encoded is no array, and none is in what its type refers to. -/
theorem encodeField_arrayFree (h : encodeField td keccak memory typ v = .ok w) :
    ¬IsArray typ ∧ (td.fields typ ≠ none → ArrayFree td typ) := by
  induction v using Json.induction generalizing typ w with
  | object m ih =>
    obtain ⟨harray, hcases⟩ := encodeField_ok h
    refine ⟨harray, fun hstruct => ?_⟩
    rcases hcases with ⟨hnone, -⟩ | ⟨-, m, heq, hhash⟩
    · exact absurd hnone hstruct
    · cases heq
      obtain ⟨fields, enc, data, hfields, -, hdata, -⟩ := hashStruct_ok hhash
      refine arrayFree_of hfields fun f hf => ?_
      obtain ⟨v, word, hv, hword⟩ := member_ok hdata f hf
      exact ih f.name v hv hword
  | other v hv =>
    obtain ⟨harray, hcases⟩ := encodeField_ok h
    refine ⟨harray, fun hstruct => ?_⟩
    rcases hcases with ⟨hnone, -⟩ | ⟨-, m, heq, -⟩
    · exact absurd hnone hstruct
    · exact absurd heq (hv m)

theorem hashStruct_arrayFree (h : hashStruct td keccak memory name value = .ok w) :
    ArrayFree td name := by
  obtain ⟨fields, enc, data, hfields, -, hdata, -⟩ := hashStruct_ok h
  refine arrayFree_of hfields fun f hf => ?_
  obtain ⟨v, word, -, hword⟩ := member_ok hdata f hf
  exact encodeField_arrayFree hword

/-! ## The standard's words -/

theorem dataWords_missing {f : Field} (h : value.lookup f.name = none) :
    dataWords td keccak value (f :: fields) = none := by
  rw [dataWords]
  split
  · rfl
  · next hv => cases h.symm.trans hv

theorem dataWords_present {f : Field} (h : value.lookup f.name = some v) :
    dataWords td keccak value (f :: fields) = (do
      let word ← fieldWord td keccak f.type v
      let out ← dataWords td keccak value fields
      return word.bytes ++ out) := by
  rw [dataWords]
  split
  · next hv => cases h.symm.trans hv
  · next v' hv =>
    cases h.symm.trans hv
    rfl

theorem fieldWord_object {m : List (String × Json)} (harray : ¬IsArray typ)
    (hstruct : td.fields typ ≠ none) :
    fieldWord td keccak typ (.object m) = structHash td keccak typ m := by
  rw [fieldWord, if_neg harray, if_pos (Option.isSome_iff_ne_none.mpr hstruct)]

theorem fieldWord_atom (harray : ¬IsArray typ) (hstruct : td.fields typ = none) :
    fieldWord td keccak typ v = (Atom.ofName typ).bind (Atom.encode keccak v) := by
  unfold fieldWord
  rw [if_neg harray, if_neg (by simp [hstruct])]

/-- An encoded value has the word it stands for where its leaves are of the standard's types. -/
def Sound (td : TypedData) (keccak : Hasher) (memory : Memory) (v : Json) : Prop :=
  ∀ typ w, encodeField td keccak memory typ v = .ok w → (∀ l ∈ fieldLeaves td typ v, l.Proper) →
    fieldWord td keccak typ v = some w

theorem dataWords_eq (ih : ∀ name v, value.lookup name = some v → Sound td keccak memory v)
    (h : encodeData td keccak memory name value fields = .ok bs)
    (hproper : ∀ l ∈ dataLeaves td name value fields, l.Proper) :
    dataWords td keccak value fields = some bs := by
  induction fields generalizing bs with
  | nil =>
    rw [encodeData] at h
    rw [dataWords, Except.ok.inj h]
  | cons f fields hrest =>
    obtain ⟨v, word, out, hv, hword, hout, rfl⟩ := encodeData_ok h
    rw [dataLeaves_present hv, List.forall_mem_append] at hproper
    rw [dataWords_present hv, ih f.name v hv f.type word hword hproper.1, hrest hout hproper.2]
    rfl

theorem structHash_eq (ih : ∀ name v, value.lookup name = some v → Sound td keccak memory v)
    (h : hashStruct td keccak memory name value = .ok w)
    (hproper : ∀ l ∈ structLeaves td name value, l.Proper) :
    structHash td keccak name value = some w := by
  have hfree := hashStruct_arrayFree h
  obtain ⟨fields, enc, data, hfields, henc, hdata, rfl⟩ := hashStruct_ok h
  have hnode : td.fields name ≠ none := by simp [hfields]
  rw [encodeType_eq hnode hfree] at henc
  rw [structLeaves, hfields] at hproper
  rw [structHash, hfields, ← Except.ok.inj henc, Option.bind_eq_bind, Option.bind_some,
    dataWords_eq ih hdata hproper]
  rfl

theorem fieldWord_eq (harray : ¬IsArray typ) (hstruct : td.fields typ = none)
    (hatom : encodeAtom keccak memory typ v = .ok w) (hproper : (Leaf.value typ v).Proper) :
    fieldWord td keccak typ v = some w := by
  obtain ⟨atom, rfl⟩ := hproper
  rw [encodeAtom, readType_name] at hatom
  rw [fieldWord_atom harray hstruct, Atom.ofName_name]
  exact Atom.encode_eq hatom

/-- Encoding is sound, whatever the value. -/
theorem sound (v : Json) : Sound td keccak memory v := by
  induction v using Json.induction with
  | object m ih =>
    intro typ w h hproper
    obtain ⟨harray, ⟨hnone, hatom⟩ | ⟨hstruct, m, heq, hhash⟩⟩ := encodeField_ok h
    · rw [fieldLeaves_value (.inr (.inl hnone)), List.forall_mem_singleton] at hproper
      exact fieldWord_eq harray hnone hatom hproper
    · cases heq
      rw [fieldLeaves_object harray hstruct] at hproper
      rw [fieldWord_object harray hstruct]
      exact structHash_eq ih hhash hproper
  | other v hv =>
    intro typ w h hproper
    obtain ⟨harray, ⟨hnone, hatom⟩ | ⟨-, m, heq, -⟩⟩ := encodeField_ok h
    · rw [fieldLeaves_value (.inr (.inl hnone)), List.forall_mem_singleton] at hproper
      exact fieldWord_eq harray hnone hatom hproper
    · exact absurd heq (hv m)

/-- A document with the standard's own types at its leaves has the digest it is given. -/
theorem documentDigest_eq (h : digest td keccak memory = .ok w)
    (hproper : ∀ l ∈ td.leaves, l.Proper) : documentDigest td keccak = some w := by
  rw [digest] at h
  obtain ⟨separator, hseparator, h⟩ := eq_ok_of_bind h
  obtain ⟨msg, hmsg, h⟩ := eq_ok_of_bind h
  rw [TypedData.leaves, List.forall_mem_append] at hproper
  rw [documentDigest,
    structHash_eq (fun _ v _ => sound v) (eq_ok_of_mapError hseparator) hproper.1,
    structHash_eq (fun _ v _ => sound v) (eq_ok_of_mapError hmsg) hproper.2]
  exact congrArg some (Except.ok.inj h)

/-! ## No other types -/

/-- A value with a word has leaves of the standard's types alone. -/
def Standard (td : TypedData) (keccak : Hasher) (v : Json) : Prop :=
  ∀ typ w, fieldWord td keccak typ v = some w → ∀ l ∈ fieldLeaves td typ v, l.Proper

theorem standard_of_dataWords (ih : ∀ name v, value.lookup name = some v → Standard td keccak v)
    (h : dataWords td keccak value fields = some bs) :
    ∀ l ∈ dataLeaves td name value fields, l.Proper := by
  induction fields generalizing bs with
  | nil =>
    rw [dataLeaves]
    exact List.forall_mem_nil _
  | cons f fields hrest =>
    cases hv : value.lookup f.name with
    | none =>
      rw [dataWords_missing hv] at h
      cases h
    | some v =>
      rw [dataWords_present hv] at h
      obtain ⟨word, hword, h⟩ := Option.bind_eq_some_iff.mp h
      obtain ⟨out, hout, -⟩ := Option.bind_eq_some_iff.mp h
      rw [dataLeaves_present hv, List.forall_mem_append]
      exact ⟨ih f.name v hv f.type word hword, hrest hout⟩

theorem standard_of_structHash (ih : ∀ name v, value.lookup name = some v → Standard td keccak v)
    (h : structHash td keccak name value = some w) :
    ∀ l ∈ structLeaves td name value, l.Proper := by
  rw [structHash] at h
  obtain ⟨fields, hfields, h⟩ := Option.bind_eq_some_iff.mp h
  obtain ⟨data, hdata, -⟩ := Option.bind_eq_some_iff.mp h
  rw [structLeaves, hfields]
  exact standard_of_dataWords ih hdata

theorem proper_of_fieldWord (harray : ¬IsArray typ) (hstruct : td.fields typ = none)
    (h : fieldWord td keccak typ v = some w) : (Leaf.value typ v).Proper := by
  rw [fieldWord_atom harray hstruct] at h
  obtain ⟨atom, hatom, -⟩ := Option.bind_eq_some_iff.mp h
  exact ⟨atom, Atom.name_of_ofName hatom⟩

theorem not_isArray_of_fieldWord (h : fieldWord td keccak typ v = some w) : ¬IsArray typ := by
  intro harray
  unfold fieldWord at h
  rw [if_pos harray] at h
  cases h

theorem standard (v : Json) : Standard td keccak v := by
  induction v using Json.induction with
  | object m ih =>
    intro typ w h
    have harray := not_isArray_of_fieldWord h
    by_cases hstruct : td.fields typ = none
    · rw [fieldLeaves_value (.inr (.inl hstruct)), List.forall_mem_singleton]
      exact proper_of_fieldWord harray hstruct h
    · rw [fieldLeaves_object harray hstruct]
      rw [fieldWord_object harray hstruct] at h
      exact standard_of_structHash ih h
  | other v hv =>
    intro typ w h
    have harray := not_isArray_of_fieldWord h
    rw [fieldLeaves_value (.inr (.inr hv)), List.forall_mem_singleton]
    by_cases hstruct : td.fields typ = none
    · exact proper_of_fieldWord harray hstruct h
    · unfold fieldWord at h
      rw [if_neg harray, if_pos (Option.isSome_iff_ne_none.mpr hstruct)] at h
      cases v with
      | object m => exact absurd rfl (hv m)
      | _ => cases h

/-- Only a document with the standard's own types at its leaves has a digest. -/
theorem proper_of_documentDigest (h : documentDigest td keccak = some w) :
    ∀ l ∈ td.leaves, l.Proper := by
  rw [documentDigest] at h
  obtain ⟨separator, hseparator, h⟩ := Option.bind_eq_some_iff.mp h
  obtain ⟨msg, hmsg, -⟩ := Option.bind_eq_some_iff.mp h
  rw [TypedData.leaves, List.forall_mem_append]
  exact ⟨standard_of_structHash (fun _ v _ => standard v) hseparator,
    standard_of_structHash (fun _ v _ => standard v) hmsg⟩

end SuperAgent.Eip712
