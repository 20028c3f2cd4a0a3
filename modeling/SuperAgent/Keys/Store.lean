import SuperAgent.Core.Clock
import SuperAgent.Core.Text
import Mathlib.Data.List.Basic

/-!
# Exchange keys

The exchange keys of all wallets, one for each wallet and strategy. A key without
a strategy serves its whole wallet; a wallet's keys from before that are each
enrolled for a strategy, and the first of them by name serves it.
-/

namespace SuperAgent.Keys

/-- An enrolled key and the terms it was enrolled under. -/
structure Key where
  address : String
  strategy : String
  apiKey : String
  privateKey : List Nat
  label : String
  builderID : Int
  maxBuilderFeePer100K : Int
  maxBuilderFeePct : String
  derived : Bool
  enrolledAt : Time
  deriving DecidableEq

def normalize (address : String) : String := toLower (trimSpace address)

/-- What a key is kept under. -/
def idOf (address strategy : String) : String := normalize address ++ "/" ++ trimSpace strategy

def Key.ID (k : Key) : String := idOf k.address k.strategy

/-- The keys, no two under one id. -/
abbrev Store := List Key

namespace Store

/-- The key of a wallet and a strategy, exactly. -/
def get (s : Store) (address strategy : String) : Option Key :=
  s.find? fun k => k.ID = idOf address strategy

/-- Keep a key in the place of an earlier one for the same wallet and strategy. -/
def put (s : Store) (k : Key) : Store :=
  let k := { k with address := normalize k.address, strategy := trimSpace k.strategy }
  s.filter (fun l => l.ID ≠ k.ID) ++ [k]

/-- Forget a key. -/
def delete (s : Store) (address strategy : String) : Store :=
  s.filter fun k => k.ID ≠ idOf address strategy

/-- The first key by the name of its strategy. -/
def firstByStrategy (ks : List Key) : Option Key :=
  ks.foldl (fun found k =>
    match found with
    | none => some k
    | some f => if k.strategy < f.strategy then some k else some f) none

/-- The key of a wallet, whatever strategy is asked for. -/
def resolve (s : Store) (address _strategy : String) : Option Key :=
  match s.get address "" with
  | some k => some k
  | none => firstByStrategy (s.filter fun k => k.address = normalize address)

end Store

/-! ## Keys as they are stored -/

/-- A key under a wallet's address, with no slash but the one its id puts between the address and
the strategy. -/
structure Key.Stored (k : Key) : Prop where
  normal : normalize k.address = k.address
  address : '/' ∉ k.address.toList
  strategy : '/' ∉ (trimSpace k.strategy).toList

theorem idOf_toList (address strategy : String) : (idOf address strategy).toList =
    (normalize address).toList ++ '/' :: (trimSpace strategy).toList := by
  have hslash : "/".toList = ['/'] := by decide
  rw [idOf, String.toList_append, String.toList_append, List.append_assoc, hslash,
    List.singleton_append]

variable {k : Key} {s : Store} {address strategy : String}

/-- A key is found under the ids of its own wallet only, however the wallet is written. -/
theorem Key.Stored.address_of_id (hk : k.Stored) (h : k.ID = idOf address strategy) :
    k.address = normalize address := by
  have hlist := congrArg String.toList h
  simp only [Key.ID, idOf_toList, hk.normal] at hlist
  have hparts := (List.append_cons_inj_of_notMem hk.address hk.strategy).mp hlist
  exact String.toList_inj.mp hparts.1

namespace Store

/-- Every key is kept as it should be. -/
def Sound (s : Store) : Prop := ∀ k ∈ s, k.Stored

theorem Sound.delete (h : s.Sound) : (s.delete address strategy).Sound :=
  fun k hk => h k (List.mem_filter.mp hk).1

theorem Sound.put (h : s.Sound)
    (hk : Key.Stored { k with address := normalize k.address, strategy := trimSpace k.strategy }) :
    (s.put k).Sound := by
  intro l hl
  rcases List.mem_append.mp hl with hl | hl
  · exact h l (List.mem_filter.mp hl).1
  · rw [List.mem_singleton.mp hl]
    exact hk

/-- The first key is one of the keys, and there is one unless there is none at all. -/
theorem firstByStrategy_spec (ks : List Key) :
    (∀ k, firstByStrategy ks = some k → k ∈ ks) ∧ (firstByStrategy ks = none → ks = []) := by
  have hfold : ∀ (ks : List Key) (found : Option Key),
      (∀ k, ks.foldl (fun found k => match found with
        | none => some k
        | some f => if k.strategy < f.strategy then some k else some f) found = some k →
          found = some k ∨ k ∈ ks) ∧
      (ks.foldl (fun found k => match found with
        | none => some k
        | some f => if k.strategy < f.strategy then some k else some f) found = none →
          found = none ∧ ks = []) := by
    intro ks
    induction ks with
    | nil => exact fun found => ⟨fun k h => .inl h, fun h => ⟨h, rfl⟩⟩
    | cons l ks ih =>
      intro found
      rw [List.foldl_cons]
      constructor
      · intro k hk
        rcases (ih _).1 k hk with hfound | hk
        · cases found with
          | none => exact .inr (Option.some.inj hfound ▸ List.mem_cons_self)
          | some f =>
            dsimp only at hfound
            split at hfound
            · exact .inr (Option.some.inj hfound ▸ List.mem_cons_self)
            · exact .inl hfound
        · exact .inr (List.mem_cons_of_mem _ hk)
      · intro hnone
        have hstep := ((ih _).2 hnone).1
        cases found with
        | none => cases hstep
        | some f =>
          dsimp only at hstep
          split at hstep <;> cases hstep
  constructor
  · intro k hk
    exact ((hfold ks none).1 k hk).resolve_left nofun
  · exact fun h => ((hfold ks none).2 h).2

/-- What a wallet resolves to is a key of the wallet. -/
theorem Sound.of_resolve (h : s.Sound) (hk : s.resolve address strategy = some k) :
    k ∈ s ∧ k.address = normalize address := by
  unfold resolve at hk
  cases hwide : s.get address "" with
  | some l =>
    rw [hwide] at hk
    obtain rfl := Option.some.inj hk
    have hmem : l ∈ s := List.mem_of_find?_eq_some hwide
    have hid : l.ID = idOf address "" := by simpa using List.find?_some hwide
    exact ⟨hmem, (h l hmem).address_of_id hid⟩
  | none =>
    rw [hwide] at hk
    obtain ⟨hmem, haddress⟩ := List.mem_filter.mp ((firstByStrategy_spec _).1 k hk)
    exact ⟨hmem, of_decide_eq_true haddress⟩

/-- A wallet with a key resolves to one. -/
theorem resolve_ne_none (hk : k ∈ s) (hw : k.address = normalize address) :
    s.resolve address strategy ≠ none := by
  unfold resolve
  cases s.get address "" with
  | some l => exact Option.some_ne_none l
  | none =>
    intro hnone
    have hnil := (firstByStrategy_spec _).2 hnone
    have hmem : k ∈ s.filter fun k => k.address = normalize address :=
      List.mem_filter.mpr ⟨hk, decide_eq_true hw⟩
    rw [hnil] at hmem
    cases hmem

/-- However a wallet is written and whatever strategy is asked for, it resolves to the same key. -/
theorem resolve_congr {address' strategy' : String} (h : normalize address = normalize address') :
    s.resolve address strategy = s.resolve address' strategy' := by
  unfold resolve get idOf
  rw [h]

end Store

end SuperAgent.Keys
