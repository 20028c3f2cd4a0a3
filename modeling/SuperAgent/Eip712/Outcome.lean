import SuperAgent.Eip712.Soundness

/-!
# When a document has the digest it should

A digest is the standard's or there is none, but for two kinds of document. One
has a value too large for a word at a width beyond the standard's, and encoding
it panics. The other has a width that the standard has no type for, and is
given a digest all the same.
-/

namespace SuperAgent.Eip712

open Chain

variable {td : TypedData} {keccak : Hasher} {memory : Memory} {typ name : String} {v : Json}
  {value : List (String × Json)} {ls : List Leaf} {l : Leaf} {p q : Leaf → Prop}

/-! ## The first leaf that is not accepted -/

theorem Kind.not_overflows {kind : Kind} (h : kind.Accepts memory v) :
    ¬kind.Overflows memory v := by
  cases kind with
  | uint bits =>
    rintro ⟨n, hn, hin, hbig⟩
    obtain ⟨n', hn', -, hsmall⟩ := h
    cases hn.symm.trans hn'
    omega
  | int bits =>
    rintro ⟨n, hn, hout⟩
    obtain ⟨n', hn', hroom, hin, hsmall⟩ := h
    cases hn.symm.trans hn'
    rcases hout with hout | ⟨-, hout⟩ <;> omega
  | _ => exact id

theorem Leaf.not_overflows (h : l.Accepts td memory) : ¬l.Overflows td memory := by
  cases l with
  | value typ v =>
    rintro ⟨-, kind, hkind, hover⟩
    obtain ⟨-, kind', hkind', haccepts⟩ := h
    cases hkind.symm.trans hkind'
    exact Kind.not_overflows haccepts hover
  | _ => exact id

theorem first_cons :
    First td memory p (l :: ls) ↔ p l ∨ l.Accepts td memory ∧ First td memory p ls := by
  constructor
  · rintro ⟨pre, x, post, heq, hpre, hx⟩
    cases pre with
    | nil =>
      cases heq
      exact .inl hx
    | cons y pre =>
      cases heq
      obtain ⟨hy, hpre⟩ := List.forall_mem_cons.mp hpre
      exact .inr ⟨hy, pre, x, post, rfl, hpre, hx⟩
  · rintro (hl | ⟨hl, hrest⟩)
    · exact First.head hl
    · exact First.prepend (List.forall_mem_singleton.mpr hl) hrest

theorem First.not_all (h : First td memory p ls) (hp : ∀ l, p l → ¬l.Accepts td memory) :
    ¬∀ l ∈ ls, l.Accepts td memory := by
  obtain ⟨pre, l, post, rfl, -, hl⟩ := h
  exact fun hall => hp l hl (hall l (List.mem_append_right _ List.mem_cons_self))

/-- The first leaf that is not accepted is one leaf. -/
theorem First.unique (h : First td memory p ls) (h' : First td memory q ls)
    (hp : ∀ l, p l → ¬l.Accepts td memory) (hq : ∀ l, q l → ¬l.Accepts td memory) :
    ∃ l, p l ∧ q l := by
  induction ls with
  | nil =>
    obtain ⟨pre, l, post, heq, -⟩ := h
    cases pre <;> cases heq
  | cons l ls ih =>
    rcases first_cons.mp h with hl | ⟨haccepts, hrest⟩ <;>
      rcases first_cons.mp h' with hl' | ⟨haccepts', hrest'⟩
    · exact ⟨l, hl, hl'⟩
    · exact absurd haccepts' (hp l hl)
    · exact absurd haccepts (hq l hl')
    · exact ih hrest hrest'

/-- A document's digest panics where its first leaf that is not accepted overflows. -/
theorem digest_panic_iff (td : TypedData) (keccak : Hasher) (memory : Memory) :
    digest td keccak memory = .error .panic ↔
      First td memory (fun l => l.Overflows td memory) td.leaves := by
  have hfits := digest_fits td keccak memory
  constructor
  · intro h
    rwa [h] at hfits
  · intro hfirst
    cases h : digest td keccak memory with
    | ok w =>
      rw [h] at hfits
      exact absurd hfits (hfirst.not_all fun l hl haccepts => Leaf.not_overflows haccepts hl)
    | error stop =>
      rw [h] at hfits
      cases stop with
      | panic => rfl
      | fault e =>
        obtain ⟨l, hrefused, hover⟩ := First.unique hfits hfirst (fun l hl => hl.1)
          fun l hl haccepts => Leaf.not_overflows haccepts hl
        exact absurd hover hrefused.2

/-! ## The digest a document should have -/

/-- A digest is the standard's, or there is a fault that says why there is none. -/
def Meets (td : TypedData) (keccak : Hasher) : Except Stop Bytes32 → Prop
  | .ok d => documentDigest td keccak = some d
  | .error (.fault _) => True
  | .error .panic => False

/-- The first value that is not encoded, if there is one, is refused. If there is none, the types
are the standard's own. -/
structure Regular (td : TypedData) (memory : Memory) : Prop where
  no_overflow : ¬First td memory (fun l => l.Overflows td memory) td.leaves
  proper : (∀ l ∈ td.leaves, l.Accepts td memory) → ∀ l ∈ td.leaves, l.Proper

/-- The digest of a document is the standard's or a fault just where the document is regular. -/
theorem digest_meets_iff (td : TypedData) (keccak : Hasher) (memory : Memory) :
    Meets td keccak (digest td keccak memory) ↔ Regular td memory := by
  have hfits := digest_fits td keccak memory
  have hpanic := digest_panic_iff td keccak memory
  cases h : digest td keccak memory with
  | ok d =>
    rw [h] at hfits hpanic
    constructor
    · intro hmeets
      refine ⟨fun hfirst => ?_, fun _ => proper_of_documentDigest hmeets⟩
      cases hpanic.mpr hfirst
    · intro hregular
      exact documentDigest_eq h (hregular.proper hfits)
  | error stop =>
    rw [h] at hfits hpanic
    cases stop with
    | fault e =>
      refine ⟨fun _ => ⟨fun hfirst => ?_, fun hall => ?_⟩, fun _ => trivial⟩
      · cases hpanic.mpr hfirst
      · exact absurd hall (First.not_all hfits fun l hl => hl.1)
    | panic => exact ⟨False.elim, fun hregular => hregular.no_overflow (hpanic.mp rfl)⟩

/-! ## Documents of the standard's own types -/

/-- The type of a leaf is the type of some member. -/
def Leaf.HasType (P : String → Prop) (l : Leaf) : Prop := ∀ typ v, l = .value typ v → P typ

theorem dataLeaves_hasType {P : String → Prop} {fields : List Field}
    (ih : ∀ name v, value.lookup name = some v →
      ∀ typ, P typ → ∀ l ∈ fieldLeaves td typ v, l.HasType P)
    (hfields : ∀ f ∈ fields, P f.type) : ∀ l ∈ dataLeaves td name value fields, l.HasType P := by
  induction fields with
  | nil =>
    rw [dataLeaves]
    exact List.forall_mem_nil _
  | cons f fields hrest =>
    obtain ⟨hf, hfields⟩ := List.forall_mem_cons.mp hfields
    cases hv : value.lookup f.name with
    | none =>
      rw [dataLeaves_missing hv, List.forall_mem_append, List.forall_mem_singleton]
      exact ⟨fun _ _ h => Leaf.noConfusion h, hrest hfields⟩
    | some v =>
      rw [dataLeaves_present hv, List.forall_mem_append]
      exact ⟨ih f.name v hv f.type hf, hrest hfields⟩

theorem structLeaves_hasType {P : String → Prop}
    (ih : ∀ name v, value.lookup name = some v →
      ∀ typ, P typ → ∀ l ∈ fieldLeaves td typ v, l.HasType P)
    (h : ∀ name fields, td.fields name = some fields → ∀ f ∈ fields, P f.type) :
    ∀ l ∈ structLeaves td name value, l.HasType P := by
  rw [structLeaves]
  cases hfields : td.fields name with
  | none => exact List.forall_mem_singleton.mpr fun _ _ h => Leaf.noConfusion h
  | some fields => exact dataLeaves_hasType ih (h name fields hfields)

theorem fieldLeaves_hasType {P : String → Prop}
    (h : ∀ name fields, td.fields name = some fields → ∀ f ∈ fields, P f.type) (v : Json)
    (typ : String) (htyp : P typ) : ∀ l ∈ fieldLeaves td typ v, l.HasType P := by
  have hself : (Leaf.value typ v).HasType P := by
    rintro _ _ ⟨⟩
    exact htyp
  induction v using Json.induction generalizing typ with
  | object m ih =>
    by_cases hleaf : IsArray typ ∨ td.fields typ = none
    · rw [fieldLeaves_value (hleaf.imp_right .inl)]
      exact List.forall_mem_singleton.mpr hself
    · obtain ⟨harray, hstruct⟩ := not_or.mp hleaf
      rw [fieldLeaves_object harray hstruct]
      refine structLeaves_hasType (fun name v hv typ htyp => ih name v hv typ htyp ?_) h
      rintro _ _ ⟨⟩
      exact htyp
  | other v hv =>
    rw [fieldLeaves_value (.inr (.inr hv))]
    exact List.forall_mem_singleton.mpr hself

/-- A document whose members are structs, arrays or of the standard's own types is regular,
whatever its values. -/
theorem regular_of_types
    (h : ∀ name fields, td.fields name = some fields → ∀ f ∈ fields,
      IsArray f.type ∨ td.fields f.type ≠ none ∨ ∃ atom, Atom.name atom = f.type) :
    Regular td memory := by
  have htypes : ∀ l ∈ td.leaves, l.HasType fun typ =>
      IsArray typ ∨ td.fields typ ≠ none ∨ ∃ atom, Atom.name atom = typ := by
    rw [TypedData.leaves, List.forall_mem_append]
    exact ⟨structLeaves_hasType (fun _ v _ => fieldLeaves_hasType h v) h,
      structLeaves_hasType (fun _ v _ => fieldLeaves_hasType h v) h⟩
  constructor
  · rintro ⟨pre, l, post, heq, -, hover⟩
    have hl : l ∈ td.leaves := heq ▸ List.mem_append_right _ List.mem_cons_self
    cases l with
    | value typ v =>
      obtain ⟨⟨harray, hstruct⟩, kind, hkind, hover⟩ := hover
      obtain ⟨atom, rfl⟩ := ((htypes _ hl typ v rfl).resolve_left harray).resolve_left
        (not_not.mpr hstruct)
      cases (readType_name atom).symm.trans hkind
      exact atom.not_overflows hover
    | _ => exact hover
  · intro haccepts l hl
    cases l with
    | value typ v =>
      obtain ⟨⟨harray, hstruct⟩, -⟩ := haccepts _ hl
      exact ((htypes _ hl typ v rfl).resolve_left harray).resolve_left (not_not.mpr hstruct)
    | _ => exact haccepts _ hl

/-- An amount of `2 ^ 256`, in a type of twice as many bits. -/
def oversized : TypedData where
  types := [("EIP712Domain", []), ("Permit", [⟨"amount", "uint512"⟩])]
  primaryType := "Permit"
  domain := []
  message := [("amount", .number
    "115792089237316195423570985008687907853269984665640564039457584007913129639936")]

theorem leaves_oversized :
    oversized.leaves = [.value "uint512" (.number
      "115792089237316195423570985008687907853269984665640564039457584007913129639936")] := by
  have hdomain : oversized.fields "EIP712Domain" = some [] := rfl
  have hpermit : oversized.fields oversized.primaryType = some [⟨"amount", "uint512"⟩] := rfl
  rw [TypedData.leaves, structLeaves, structLeaves, hdomain, hpermit]
  change dataLeaves _ _ _ [] ++ dataLeaves _ _ _ [⟨"amount", "uint512"⟩] = _
  rw [dataLeaves, dataLeaves_present rfl, dataLeaves, fieldLeaves_value (.inr (.inl rfl))]
  rfl

/-- Such an amount panics. -/
theorem oversized_panics :
    ¬Meets oversized (fun _ => leftAligned []) (digest oversized (fun _ => leftAligned [])
      ⟨256, le_rfl⟩) := by
  have hamount : bigInt (.number
      "115792089237316195423570985008687907853269984665640564039457584007913129639936") =
      .ok 115792089237316195423570985008687907853269984665640564039457584007913129639936 := by
    rfl
  have hpow : 115792089237316195423570985008687907853269984665640564039457584007913129639936 =
      2 ^ 256 := by
    decide
  have hpanic : digest oversized (fun _ => leftAligned []) ⟨256, le_rfl⟩ = .error .panic := by
    refine (digest_panic_iff _ _ _).mpr ?_
    rw [leaves_oversized]
    refine First.head ⟨⟨by decide, rfl⟩, .uint 512, rfl, _, hamount, ⟨by decide, ?_⟩, by decide⟩
    have hsize : Nat.size _ = 257 := (congrArg Nat.size hpow).trans Nat.size_pow
    exact Int.ofNat_le.mpr (hsize.trans_le (by decide))
  rw [hpanic]
  exact id

end SuperAgent.Eip712
