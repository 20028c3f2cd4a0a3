import SuperAgent.Core.Checked
import SuperAgent.Core.Folding
import SuperAgent.Core.Run
import SuperAgent.Keys.Pending
import SuperAgent.Keys.Seal
import Mathlib.Logic.Function.Basic

/-!
# Exchange keys at rest

The table of exchange keys outlives the processes that read it. A process may
be started with an encryption key: it seals the private keys it finds in the
clear, one row at a time, and those it writes. It loads the table into memory,
and writes through to it. What the table stands for, whatever was sealed when,
is the map of the keys whose writes the database took.
-/

namespace SuperAgent.Keys

variable {A : Aead}

/-- The rows of the table. Their private keys are sealed or in the clear. -/
abbrev KeyTable := List Key

/-- What a row is kept under. -/
def rowID (k : Key) : String × String := (k.address, k.strategy)

/-- A key as it is read, with whether its row was sealed. -/
structure KeyRecord where
  key : Key
  «sealed» : Bool

/-- What a sealed private key is bound to. -/
def keyLabel (address strategy : String) : String := toLower address ++ "/" ++ strategy

def privateKeySize : ℕ := 64

/-- Why the table cannot be read. -/
inductive KeyTableError
  | keyless (address strategy : String)
  | opening (address strategy : String) (e : SealError)
  | size (address : String) (n : ℕ)
  deriving DecidableEq

def KeyTableError.text : KeyTableError → String
  | .keyless address strategy => "store: key for " ++ address ++ "/" ++ strategy ++
      " is sealed but no PLATFORM_KEY_ENCRYPTION_KEY is set"
  | .opening address strategy e => "store: key for " ++ address ++ "/" ++ strategy ++ ": " ++ e.text
  | .size address n => "store: key for " ++ address ++ " has " ++ toString n ++ " bytes"

namespace KeyTable

/-- The private key as it is written. -/
def atRest (sealer : Option (Sealer A)) (nonce : A.Nonce) (k : Key) : List Nat :=
  match sealer with
  | none => k.privateKey
  | some s => s.sealed nonce k.privateKey (keyLabel k.address k.strategy)

def putKey (sealer : Option (Sealer A)) (nonce : A.Nonce) (k : Key) (rows : KeyTable) : KeyTable :=
  Table.put rowID
    { k with
      address := toLower k.address
      privateKey := atRest sealer nonce k
      enrolledAt := k.enrolledAt.micros } rows

def deleteKey (address strategy : String) (rows : KeyTable) : KeyTable :=
  Table.erase rowID (toLower address, strategy) rows

/-- The private key of a row, with whether it was sealed. -/
def opened (sealer : Option (Sealer A)) (r : Key) : Except KeyTableError (List Nat × Bool) :=
  if isSealed r.privateKey then
    match sealer with
    | none => .error (.keyless r.address r.strategy)
    | some s =>
      match s.open r.privateKey (keyLabel r.address r.strategy) with
      | .error e => .error (.opening r.address r.strategy e)
      | .ok priv => .ok (priv, true)
  else .ok (r.privateKey, false)

def readKey (sealer : Option (Sealer A)) (r : Key) : Except KeyTableError KeyRecord :=
  match opened sealer r with
  | .error e => .error e
  | .ok (priv, «sealed») =>
    if priv.length ≠ privateKeySize then .error (.size r.address priv.length)
    else .ok ⟨{ r with privateKey := priv }, «sealed»⟩

/-- Every key. A sealed row without a sealer, or under another key, is an error. -/
def keys (sealer : Option (Sealer A)) (rows : KeyTable) : Except KeyTableError (List KeyRecord) :=
  rows.mapM (readKey sealer)

end KeyTable

/-- Where a process is: it seals what it found in the clear, then loads the table and serves. -/
inductive Process (A : Aead)
  | down
  | starting (sealer : Option (Sealer A)) (todo : List Key)
  | up (sealer : Option (Sealer A)) (memory : Store)

/-- What became of a write to the database. A lost one was made, and reported as failed. -/
inductive Written
  | done
  | refused
  | lost
  deriving DecidableEq

/-- What can happen to the table and to the process that has it open. -/
inductive KeyAction (A : Aead)
  | start (hexKey : String)
  | reseal (nonce : A.Nonce) (w : Written)
  | load
  | put (k : Key) (nonce : A.Nonce) (w : Written)
  | delete (address strategy : String) (w : Written)
  | stop

/-- The table, the process, and for every wallet and strategy the key whose write was the last one
made. The rows whose last write of this process was refused are behind its memory. -/
structure KeyDesk (A : Aead) where
  rows : KeyTable
  process : Process A
  kept : String × String → Option Key
  behind : List (String × String)

/-- A key as a column keeps it. -/
def Key.stamped (k : Key) : Key := { k with enrolledAt := k.enrolledAt.micros }

/-- A key as it is put into memory. -/
def Key.filed (k : Key) : Key :=
  { k with address := normalize k.address, strategy := trimSpace k.strategy }

namespace KeyDesk

open KeyTable

/-- A process started with what the environment names as its encryption key, if anything. -/
def started (hexKey : String) (rows : KeyTable) : Process A :=
  if hexKey = "" then .starting none []
  else match Sealer.new hexKey with
    | .error _ => .down
    | .ok s =>
      match keys (some s) rows with
      | .error _ => .down
      | .ok recs => .starting (some s) ((recs.filter fun r => ¬ r.sealed).map KeyRecord.key)

/-- A write that reached the database, or that did not. -/
def write (d : KeyDesk A) (w : Written) (id : String × String) (rows : KeyTable)
    (k : Option Key) : KeyDesk A :=
  match w with
  | .refused => { d with behind := id :: d.behind }
  | _ => { d with
      rows := rows
      kept := Function.update d.kept id k
      behind := d.behind.filter (· ≠ id) }

def step (d : KeyDesk A) : KeyAction A → Option (KeyDesk A)
  | .start hexKey =>
    match d.process with
    | .down => some { d with process := started hexKey d.rows }
    | _ => none
  | .reseal nonce w =>
    match d.process with
    | .starting sealer (k :: todo) =>
      match w with
      | .done =>
        some { d with rows := putKey sealer nonce k d.rows, process := .starting sealer todo }
      | .refused => some { d with process := .down }
      | .lost => some { d with rows := putKey sealer nonce k d.rows, process := .down }
    | _ => none
  | .load =>
    match d.process with
    | .starting sealer [] =>
      match keys sealer d.rows with
      | .error _ => some { d with process := .down }
      | .ok recs => some { d with
          process := .up sealer (Store.withBackend (recs.map KeyRecord.key))
          behind := [] }
    | _ => none
  | .put k nonce w =>
    match d.process with
    | .up sealer memory =>
      some (({ d with process := .up sealer (memory.put k) }).write w (rowID k.filed)
        (putKey sealer nonce k.filed d.rows) (some k.filed.stamped))
    | _ => none
  | .delete address strategy w =>
    match d.process with
    | .up sealer memory =>
      some (({ d with process := .up sealer (memory.delete address strategy) }).write w
        (normalize address, trimSpace strategy)
        (deleteKey (normalize address) (trimSpace strategy) d.rows) none)
    | _ => none
  | .stop => some { d with process := .down }

/-- Nothing written yet, and no process. -/
def fresh : KeyDesk A := ⟨[], .down, fun _ => none, []⟩

end KeyDesk

/-! ## Rows stand for keys -/

/-- What a key must be to be read back: one of the platform's, named the way it is kept. -/
structure Key.Filed (k : Key) : Prop where
  stored : k.Stored
  trimmed : trimSpace k.strategy = k.strategy
  size : k.privateKey.length = privateKeySize

/-- A row is a key, with its private key in the clear or sealed under its label. -/
def Holds (s : Sealer A) (k r : Key) : Prop :=
  r = { k with privateKey := r.privateKey } ∧
    (r.privateKey = k.privateKey ∧ isSealed k.privateKey = false ∨
      ∃ nonce : A.Nonce,
        r.privateKey = s.sealed nonce k.privateKey (keyLabel k.address k.strategy))

/-- The rows are those of a map of keys. -/
structure Backed (s : Sealer A) (rows : KeyTable) (kept : String × String → Option Key) : Prop where
  unique : Table.Unique rowID rows
  held : ∀ id, Option.Rel (Holds s) (kept id) (Table.row rowID id rows)
  filed : ∀ {id k}, kept id = some k → rowID k = id ∧ k.Filed ∧ k.stamped = k

/-- What is used to open the table: the encryption key, or nothing. -/
def Ours (s : Sealer A) (sealer : Option (Sealer A)) : Prop := ∀ t ∈ sealer, t = s

section Rows

variable {s : Sealer A} {sealer : Option (Sealer A)} {k r : Key} {rows : KeyTable}
  {kept : String × String → Option Key} {id : String × String} {nonce : A.Nonce} {rec : KeyRecord}

theorem Key.Filed.toLower (hk : k.Filed) : toLower k.address = k.address := by
  rw [← hk.stored.normal]
  exact toLower_folded k.address

@[simp] theorem rowID_stamped : rowID k.stamped = rowID k := rfl

theorem Key.Filed.stamped (hk : k.Filed) : k.stamped.Filed :=
  ⟨⟨hk.stored.normal, hk.stored.address, hk.stored.strategy⟩, hk.trimmed, hk.size⟩

@[simp] theorem stamped_stamped : k.stamped.stamped = k.stamped := by
  simp [Key.stamped]

theorem Holds.rowID (h : Holds s k r) : rowID r = rowID k := by
  rw [h.1]
  rfl

theorem Holds.opens (hA : A.Lawful) (h : Holds s k r) (hseal : isSealed r.privateKey = true) :
    s.open r.privateKey (keyLabel r.address r.strategy) = .ok k.privateKey := by
  have haddress : r.address = k.address := congrArg Prod.fst h.rowID
  have hstrategy : r.strategy = k.strategy := congrArg Prod.snd h.rowID
  rcases h.2 with ⟨hclear, hplain⟩ | ⟨nonce, hsealed⟩
  · rw [hclear, hplain] at hseal
    cases hseal
  · rw [haddress, hstrategy, hsealed]
    exact Sealer.open_sealed hA

/-- A row that can be read is read as the key it stands for. -/
theorem Holds.readKey_eq (hA : A.Lawful) (h : Holds s k r) (hk : k.Filed) (hs : Ours s sealer) :
    KeyTable.readKey sealer r = .ok rec ↔
      (sealer = none → isSealed r.privateKey = false) ∧ rec = ⟨k, isSealed r.privateKey⟩ := by
  have hkey : { r with privateKey := k.privateKey } = k := by
    rw [h.1]
  cases hseal : isSealed r.privateKey with
  | false =>
    have hclear : r.privateKey = k.privateKey := by
      rcases h.2 with ⟨hclear, -⟩ | ⟨nonce, hsealed⟩
      · exact hclear
      · rw [hsealed, Sealer.isSealed_sealed hA] at hseal
        cases hseal
    have hopened : KeyTable.opened sealer r = .ok (k.privateKey, false) := by
      simp [KeyTable.opened, hseal, ← hclear]
    have hread : KeyTable.readKey sealer r = .ok ⟨k, false⟩ := by
      simp [KeyTable.readKey, hopened, hk.size, hkey]
    rw [hread]
    exact ⟨fun heq => ⟨fun _ => rfl, (Except.ok.inj heq).symm⟩, fun heq => by rw [heq.2]⟩
  | true =>
    cases sealer with
    | none =>
      have hread : KeyTable.readKey (none : Option (Sealer A)) r =
          .error (.keyless r.address r.strategy) := by
        simp [KeyTable.readKey, KeyTable.opened, hseal]
      rw [hread]
      exact ⟨nofun, fun heq => absurd (heq.1 rfl) (by decide)⟩
    | some t =>
      obtain rfl := hs t rfl
      have hread : KeyTable.readKey (some t) r = .ok ⟨k, true⟩ := by
        simp [KeyTable.readKey, KeyTable.opened, hseal, h.opens hA hseal, hk.size, hkey]
      rw [hread]
      exact ⟨fun heq => ⟨nofun, (Except.ok.inj heq).symm⟩, fun heq => by rw [heq.2]⟩

/-- What the row of a kept key is read as. -/
def restored (kept : String × String → Option Key) (r : Key) : KeyRecord :=
  ⟨(kept (rowID r)).getD r, isSealed r.privateKey⟩

namespace Backed

theorem exists_kept (h : Backed s rows kept) (hr : r ∈ rows) :
    ∃ k, kept (rowID r) = some k ∧ Holds s k r := by
  have hheld := h.held (rowID r)
  rw [h.unique.row_self hr] at hheld
  generalize hk : kept (rowID r) = found at hheld
  cases hheld with
  | @some k _ hrow => exact ⟨k, rfl, hrow⟩

/-- The table is read with the encryption key always, and without it when nothing is sealed. -/
theorem keys_eq (hA : A.Lawful) (h : Backed s rows kept) (hs : Ours s sealer)
    {recs : List KeyRecord} : KeyTable.keys sealer rows = .ok recs ↔
      (sealer = none → ∀ r ∈ rows, isSealed r.privateKey = false) ∧
        recs = rows.map (restored kept) := by
  have hread : ∀ r ∈ rows, ∀ rec, KeyTable.readKey sealer r = .ok rec ↔
      (sealer = none → isSealed r.privateKey = false) ∧ rec = restored kept r := by
    intro r hr rec
    obtain ⟨k, hk, hheld⟩ := h.exists_kept hr
    rw [hheld.readKey_eq hA (h.filed hk).2.1 hs, restored, hk, Option.getD_some]
  have hall (hclear : sealer = none → ∀ r ∈ rows, isSealed r.privateKey = false) :
      KeyTable.keys sealer rows = .ok (rows.map (restored kept)) :=
    mapM_eq_ok_map fun r hr => (hread r hr _).mpr ⟨fun hnone => hclear hnone r hr, rfl⟩
  constructor
  · intro hkeys
    have hclear : sealer = none → ∀ r ∈ rows, isSealed r.privateKey = false := by
      intro hnone r hr
      obtain ⟨rec, hrec⟩ := exists_of_mapM_eq_ok hkeys r hr
      exact ((hread r hr rec).mp hrec).1 hnone
    exact ⟨hclear, Except.ok.inj (hkeys.symm.trans (hall hclear))⟩
  · rintro ⟨hclear, rfl⟩
    exact hall hclear

theorem restored_key (h : Backed s rows kept) (hr : r ∈ rows) :
    kept (rowID r) = some (restored kept r).key := by
  obtain ⟨k, hk, -⟩ := h.exists_kept hr
  rw [restored, hk, Option.getD_some]

theorem rowID_restored (h : Backed s rows kept) (hr : r ∈ rows) :
    rowID (restored kept r).key = rowID r :=
  (h.filed (h.restored_key hr)).1

theorem unique_restored (h : Backed s rows kept) :
    Table.Unique rowID ((rows.map (restored kept)).map KeyRecord.key) := by
  have hids : ((rows.map (restored kept)).map KeyRecord.key).map rowID = rows.map rowID := by
    simp only [List.map_map]
    exact List.map_congr_left fun r hr => h.rowID_restored hr
  rw [Table.Unique, hids]
  exact h.unique

/-- The keys that are read are those of the map. -/
theorem row_restored (h : Backed s rows kept) (id : String × String) :
    Table.row rowID id ((rows.map (restored kept)).map KeyRecord.key) = kept id := by
  have hheld := h.held id
  generalize hrow : Table.row rowID id rows = row at hheld
  generalize hk : kept id = found at hheld
  cases hheld with
  | none =>
    refine Table.row_eq_none.mpr fun k hin hid => ?_
    rw [List.map_map] at hin
    obtain ⟨r, hr, rfl⟩ := List.mem_map.mp hin
    exact Table.row_eq_none.mp hrow r hr ((h.rowID_restored hr).symm.trans hid)
  | @some k r hrel =>
    obtain ⟨hr, hid⟩ := Table.mem_of_row hrow
    refine h.unique_restored.row_eq_some.mpr ⟨?_, (h.filed hk).1⟩
    refine List.mem_map.mpr ⟨restored kept r, List.mem_map_of_mem hr, ?_⟩
    simp [restored, hid, hk]

/-- Writing a key the way it is filed moves the map at that key. -/
theorem putKey (h : Backed s rows kept) (hk : k.Filed) (hs : Ours s sealer)
    (hclear : sealer = none → isSealed k.privateKey = false) :
    Backed s (KeyTable.putKey sealer nonce k rows)
      (Function.update kept (rowID k) (some k.stamped)) := by
  have hrow : KeyTable.putKey sealer nonce k rows =
      Table.put rowID { k.stamped with privateKey := KeyTable.atRest sealer nonce k } rows := by
    rw [KeyTable.putKey, hk.toLower]
    rfl
  have hholds : Holds s k.stamped { k.stamped with privateKey := KeyTable.atRest sealer nonce k } := by
    refine ⟨rfl, ?_⟩
    cases sealer with
    | none => exact .inl ⟨rfl, hclear rfl⟩
    | some t =>
      obtain rfl := hs t rfl
      exact .inr ⟨nonce, rfl⟩
  rw [hrow]
  constructor
  · exact h.unique.put
  · intro id
    rw [Table.row_put, Function.update_apply]
    by_cases hid : id = rowID k
    · rw [if_pos hid, if_pos (by exact hid)]
      exact .some hholds
    · rw [if_neg hid, if_neg (by exact hid)]
      exact h.held id
  · intro id l hl
    rw [Function.update_apply] at hl
    split at hl
    · next hid =>
      obtain rfl := Option.some.inj hl
      exact ⟨hid.symm, hk.stamped, stamped_stamped⟩
    · exact h.filed hl

/-- Writing a kept key again leaves the map as it is. -/
theorem reseal (h : Backed s rows kept) (hs : Ours s sealer) (hkept : kept (rowID k) = some k)
    (hclear : sealer = none → isSealed k.privateKey = false) :
    Backed s (KeyTable.putKey sealer nonce k rows) kept := by
  obtain ⟨-, hfiled, hstamp⟩ := h.filed hkept
  have hput : Backed s (KeyTable.putKey sealer nonce k rows) (Function.update kept (rowID k) _) :=
    h.putKey hfiled hs hclear
  rwa [hstamp, ← hkept, Function.update_eq_self] at hput

theorem deleteKey {address : String} (h : Backed s rows kept) (strategy : String)
    (haddress : SuperAgent.toLower address = address) :
    Backed s (KeyTable.deleteKey address strategy rows)
      (Function.update kept (address, strategy) none) := by
  rw [KeyTable.deleteKey, haddress]
  constructor
  · exact h.unique.erase
  · intro id
    rw [Table.row_erase, Function.update_apply]
    split
    · exact .none
    · exact h.held id
  · intro id l hl
    rw [Function.update_apply] at hl
    split at hl
    · cases hl
    · exact h.filed hl

end Backed

end Rows

/-! ## Memory follows the table -/

/-- What a key is kept under in memory. -/
def idText (id : String × String) : String := id.1 ++ "/" ++ id.2

theorem idOf_eq (address strategy : String) :
    idOf address strategy = idText (normalize address, trimSpace strategy) := rfl

theorem get_eq (memory : Store) (address strategy : String) : memory.get address strategy =
    Table.row Key.ID (idText (normalize address, trimSpace strategy)) memory := rfl

/-- Keys in memory are filed, and those whose writes were made are the keys of the map. -/
structure Remembers (memory : Store) (behind : List (String × String))
    (kept : String × String → Option Key) : Prop where
  filed : ∀ k ∈ memory, k.Filed
  held : ∀ id, id ∉ behind → (Table.row Key.ID (idText id) memory).map Key.stamped = kept id

section Memory

variable {memory : Store} {behind : List (String × String)} {kept : String × String → Option Key}
  {k : Key} {id : String × String} {ks : List Key}

theorem normalize_normalize (address : String) :
    normalize (normalize address) = normalize address := folded_folded address

theorem Key.Filed.ID_eq (hk : k.Filed) : k.ID = idText (rowID k) := by
  rw [Key.ID, idOf_eq, hk.stored.normal, hk.trimmed]
  rfl

/-- A filed key is found under its own wallet and strategy only. -/
theorem Key.Filed.ID_eq_iff (hk : k.Filed) : k.ID = idText id ↔ rowID k = id := by
  refine ⟨fun h => ?_, fun h => h ▸ hk.ID_eq⟩
  have hslash : "/".toList = ['/'] := by decide
  have hstrategy : '/' ∉ k.strategy.toList := hk.trimmed ▸ hk.stored.strategy
  have htext := congrArg String.toList (hk.ID_eq.symm.trans h)
  simp only [idText, rowID, String.toList_append, List.append_assoc, hslash,
    List.singleton_append] at htext
  have hparts := (List.append_cons_inj_of_notMem hk.stored.address hstrategy).mp htext
  exact Prod.ext (String.toList_inj.mp hparts.1) (String.toList_inj.mp hparts.2.2)

/-- Two ids with one text have both no key, when they are not the same. -/
theorem Remembers.row_of_text (h : Remembers memory behind kept) {id' : String × String}
    (htext : idText id = idText id') (hne : id ≠ id') :
    Table.row Key.ID (idText id) memory = none := by
  refine Table.row_eq_none.mpr fun k hk hid => hne ?_
  have hfiled := h.filed k hk
  exact (hfiled.ID_eq_iff.mp hid).symm.trans (hfiled.ID_eq_iff.mp (hid.trans htext))

theorem Remembers.put (h : Remembers memory behind kept) (hk : k.filed.Filed) :
    Remembers (memory.put k) (behind.filter (· ≠ rowID k.filed))
        (Function.update kept (rowID k.filed) (some k.filed.stamped)) ∧
      Remembers (memory.put k) (rowID k.filed :: behind) kept := by
  have hput : memory.put k = Table.put Key.ID k.filed memory := rfl
  have hfiled : ∀ l ∈ memory.put k, l.Filed := by
    intro l hl
    rcases Table.mem_put.mp hl with ⟨hold, -⟩ | rfl
    · exact h.filed l hold
    · exact hk
  have hrow (id : String × String) : Table.row Key.ID (idText id) (memory.put k) =
      if id = rowID k.filed then some k.filed else Table.row Key.ID (idText id) memory := by
    rw [hput, Table.row_put]
    have hid : idText id = k.filed.ID ↔ id = rowID k.filed := by
      rw [eq_comm, hk.ID_eq_iff, eq_comm]
    simp only [hid]
  refine ⟨⟨hfiled, fun id hid => ?_⟩, ⟨hfiled, fun id hid => ?_⟩⟩
  · rw [hrow, Function.update_apply]
    split
    · rfl
    · next hne => exact h.held id fun hin => hid (by simp [hin, hne])
  · obtain ⟨hne, hin⟩ := List.ne_and_not_mem_of_not_mem_cons hid
    rw [hrow, if_neg hne]
    exact h.held id hin

theorem Remembers.delete (h : Remembers memory behind kept) (address strategy : String) :
    Remembers (memory.delete address strategy)
        (behind.filter (· ≠ (normalize address, trimSpace strategy)))
        (Function.update kept (normalize address, trimSpace strategy) none) ∧
      Remembers (memory.delete address strategy)
        ((normalize address, trimSpace strategy) :: behind) kept := by
  have hdelete : memory.delete address strategy = Table.erase Key.ID
      (idText (normalize address, trimSpace strategy)) memory := rfl
  have hfiled : ∀ l ∈ memory.delete address strategy, l.Filed :=
    fun l hl => h.filed l (Table.mem_erase.mp hl).1
  have hrow (id : String × String) : Table.row Key.ID (idText id) (memory.delete address strategy) =
      if id = (normalize address, trimSpace strategy) then none
      else Table.row Key.ID (idText id) memory := by
    rw [hdelete, Table.row_erase]
    by_cases hid : id = (normalize address, trimSpace strategy)
    · rw [if_pos hid, if_pos (congrArg idText hid)]
    · rw [if_neg hid]
      split
      · next htext => exact (h.row_of_text htext hid).symm
      · rfl
  refine ⟨⟨hfiled, fun id hid => ?_⟩, ⟨hfiled, fun id hid => ?_⟩⟩
  · rw [hrow, Function.update_apply]
    split
    · rfl
    · next hne => exact h.held id fun hin => hid (by simp [hin, hne])
  · obtain ⟨hne, hin⟩ := List.ne_and_not_mem_of_not_mem_cons hid
    rw [hrow, if_neg hne]
    exact h.held id hin

/-- What is loaded is what the table stands for. -/
theorem remembers_withBackend (hrow : ∀ id, Table.row rowID id ks = kept id)
    (hunique : Table.Unique rowID ks)
    (hfiled : ∀ {id k}, kept id = some k → rowID k = id ∧ k.Filed ∧ k.stamped = k) :
    Remembers (Store.withBackend ks) [] kept := by
  have hkept : ∀ k ∈ ks, k.Filed ∧ k.stamped = k := by
    intro k hk
    exact (hfiled ((hrow (rowID k)).symm.trans (hunique.row_self hk))).2
  have hload : Store.withBackend ks = ks.foldl (fun s k => Table.put Key.ID k s) [] := by
    rw [Store.withBackend]
    refine List.foldl_ext _ _ _ fun s k hk => ?_
    rw [(hkept k hk).1.stored.normal]
  have htexts : Table.Unique Key.ID ks := by
    refine List.Nodup.map_on (fun k hk l hl hid => ?_) (List.Nodup.of_map rowID hunique)
    have hid' : rowID l = rowID k := by
      rw [← (hkept l hl).1.ID_eq_iff, ← hid, (hkept k hk).1.ID_eq]
    exact List.inj_on_of_nodup_map hunique hk hl hid'.symm
  have hfound (id : String × String) :
      Table.row Key.ID (idText id) (Store.withBackend ks) = Table.row rowID id ks := by
    rw [hload, Table.row_foldl_put htexts]
    have hsame : Table.row Key.ID (idText id) ks = Table.row rowID id ks := by
      cases hfound : Table.row rowID id ks with
      | none =>
        refine Table.row_eq_none.mpr fun k hk hid => ?_
        exact Table.row_eq_none.mp hfound k hk ((hkept k hk).1.ID_eq_iff.mp hid)
      | some k =>
        obtain ⟨hk, hid⟩ := Table.mem_of_row hfound
        exact htexts.row_eq_some.mpr ⟨hk, (hkept k hk).1.ID_eq_iff.mpr hid⟩
    rw [hsame]
    simp [Table.row]
  constructor
  · intro k hk
    have hsound : Store.Sound ks := fun k hk => (hkept k hk).1.stored
    exact (hkept k (Store.mem_of_withBackend hsound hk)).1
  · intro id _
    rw [hfound, hrow]
    cases hk : kept id with
    | none => rfl
    | some k => exact congrArg some (hfiled hk).2.2

end Memory

/-! ## Runs -/

namespace KeyDesk

open KeyTable

/-- Whether a row is in the clear. -/
def inClear (r : Key) : Bool := ¬ isSealed r.privateKey

/-- Where the process is, the rows are sealed, or being sealed, or in the clear. -/
def Phase (s : Sealer A) (d : KeyDesk A) : Prop :=
  match d.process with
  | .down => True
  | .starting sealer todo => sealer = none ∧ todo = [] ∨ sealer = some s ∧
      (∀ k ∈ todo, d.kept (rowID k) = some k) ∧
      ∀ r ∈ d.rows, inClear r → rowID r ∈ todo.map rowID
  | .up sealer memory => Remembers memory d.behind d.kept ∧
      (sealer = none ∧ (∀ r ∈ d.rows, inClear r) ∨ sealer = some s ∧ ∀ r ∈ d.rows, ¬ inClear r)

structure Sound (s : Sealer A) (d : KeyDesk A) : Prop where
  backed : Backed s d.rows d.kept
  phase : d.Phase s

/-- One encryption key throughout, and what is put is a key of the platform's. Where nothing is
sealed its private key does not look like a sealed record. -/
def Fits (s : Sealer A) (d : KeyDesk A) : KeyAction A → Prop
  | .start hexKey => ∀ t, Sealer.new hexKey = .ok t → t = s
  | .put k _ _ => k.filed.Stored ∧ k.privateKey.length = privateKeySize ∧
      ∀ memory, d.process = .up none memory → isSealed k.privateKey = false
  | _ => True

section Runs

variable {s : Sealer A} {sealer : Option (Sealer A)} {d d' : KeyDesk A} {a : KeyAction A}
  {as : List (KeyAction A)} {rows : KeyTable} {kept : String × String → Option Key} {k r : Key}
  {nonce : A.Nonce} {hexKey : String}

@[simp] theorem privateKey_filed (k : Key) : k.filed.privateKey = k.privateKey := by
  simp only [Key.filed]

theorem filed_of_stored (hk : k.filed.Stored) (hsize : k.privateKey.length = privateKeySize) :
    k.filed.Filed where
  stored := hk
  trimmed := by simp only [Key.filed, trimSpace_trimSpace]
  size := by rw [privateKey_filed, hsize]

/-- A start finds what is in the clear, or it fails and nothing is touched. -/
theorem started_cases (hA : A.Lawful) (h : Backed s rows kept)
    (hs : ∀ t, Sealer.new hexKey = .ok t → t = s) :
    started hexKey rows = (.starting none [] : Process A) ∨
      started hexKey rows = (.down : Process A) ∨
      started hexKey rows = .starting (some s)
        ((rows.filter inClear).map fun r => (restored kept r).key) := by
  unfold started
  split
  · exact .inl rfl
  · split
    · exact .inr (.inl rfl)
    · next t ht =>
      obtain rfl := hs t ht
      have hours : Ours t (some t) := fun u hu => (Option.some.inj hu).symm
      have hkeys := (h.keys_eq hA hours).mpr ⟨nofun, rfl⟩
      rw [hkeys]
      refine .inr (.inr ?_)
      simp only [List.filter_map, List.map_map]
      rfl

/-- What is sealed now is no longer in the clear, and the rest is as it was. -/
theorem clear_putKey (hA : A.Lawful) (hk : toLower k.address = k.address)
    (hr : r ∈ putKey (some s) nonce k rows) (hclear : inClear r) :
    r ∈ rows ∧ rowID r ≠ rowID k := by
  rw [putKey, hk] at hr
  rcases Table.mem_put.mp hr with ⟨hin, hne⟩ | rfl
  · exact ⟨hin, hne⟩
  · simp [inClear, atRest, Sealer.isSealed_sealed hA] at hclear

theorem ours_none : Ours s none := fun t ht => by cases ht

theorem ours_some : Ours s (some s) := fun _ ht => (Option.some.inj ht).symm

theorem Sound.reseal (hA : A.Lawful) {todo : List Key} (h : Sound s d)
    (hd : d.process = .starting sealer (k :: todo)) :
    Sound s { d with rows := putKey sealer nonce k d.rows, process := .down } ∧
      Sound s { d with rows := putKey sealer nonce k d.rows, process := .starting sealer todo } := by
  have hphase := h.phase
  simp only [Phase, hd] at hphase
  rcases hphase with ⟨-, hnil⟩ | ⟨rfl, hkept, hclear⟩
  · cases hnil
  · have hk := hkept k List.mem_cons_self
    have hfiled := (h.backed.filed hk).2.1
    have hbacked : Backed s (putKey (some s) nonce k d.rows) d.kept :=
      h.backed.reseal ours_some hk nofun
    refine ⟨⟨hbacked, trivial⟩, ⟨hbacked, .inr ⟨rfl, ?_, ?_⟩⟩⟩
    · exact fun l hl => hkept l (List.mem_cons_of_mem k hl)
    · intro r hr hin
      obtain ⟨hold, hne⟩ := clear_putKey hA hfiled.toLower hr hin
      exact (List.mem_cons.mp (hclear r hold hin)).resolve_left hne

theorem Sound.load (hA : A.Lawful) (h : Sound s d) (hd : d.process = .starting sealer [])
    {recs : List KeyRecord} (hkeys : keys sealer d.rows = .ok recs) :
    Sound s { d with
      process := .up sealer (Store.withBackend (recs.map KeyRecord.key))
      behind := [] } := by
  have hphase := h.phase
  simp only [Phase, hd] at hphase
  have hours : Ours s sealer := by
    rcases hphase with ⟨rfl, -⟩ | ⟨rfl, -⟩
    · exact ours_none
    · exact ours_some
  obtain ⟨hnone, rfl⟩ := (h.backed.keys_eq hA hours).mp hkeys
  refine ⟨h.backed, ?_, ?_⟩
  · exact remembers_withBackend h.backed.row_restored h.backed.unique_restored h.backed.filed
  · rcases hphase with ⟨rfl, -⟩ | ⟨rfl, -, hclear⟩
    · exact .inl ⟨rfl, fun r hr => by simp [inClear, hnone rfl r hr]⟩
    · exact .inr ⟨rfl, fun r hr hin => by simpa using hclear r hr hin⟩

/-- A write keeps the rows and the memory together, whether it was made or not. -/
theorem Sound.write {memory memory' : Store} {w : Written} {id : String × String} {new : Option Key}
    (h : Sound s d) (hd : d.process = .up sealer memory)
    (hbacked : Backed s rows (Function.update d.kept id new))
    (hmade : Remembers memory' (d.behind.filter (· ≠ id)) (Function.update d.kept id new))
    (hmissed : Remembers memory' (id :: d.behind) d.kept)
    (hnone : sealer = none → (∀ r ∈ d.rows, inClear r) → ∀ r ∈ rows, inClear r)
    (hsome : sealer = some s → (∀ r ∈ d.rows, ¬ inClear r) → ∀ r ∈ rows, ¬ inClear r) :
    Sound s (({ d with process := .up sealer memory' }).write w id rows new) := by
  have hphase := h.phase
  simp only [Phase, hd] at hphase
  obtain ⟨-, hrows⟩ := hphase
  have happlied : Sound s { d with
      process := .up sealer memory'
      rows := rows
      kept := Function.update d.kept id new
      behind := d.behind.filter (· ≠ id) } := by
    refine ⟨hbacked, hmade, ?_⟩
    exact hrows.imp (fun ⟨hs, hclear⟩ => ⟨hs, hnone hs hclear⟩)
      fun ⟨hs, hsealed⟩ => ⟨hs, hsome hs hsealed⟩
  cases w with
  | done => exact happlied
  | refused => exact ⟨h.backed, hmissed, hrows⟩
  | lost => exact happlied

theorem Sound.put {memory : Store} {w : Written} (hA : A.Lawful) (h : Sound s d)
    (hd : d.process = .up sealer memory) (hstored : k.filed.Stored)
    (hsize : k.privateKey.length = privateKeySize)
    (hplain : sealer = none → isSealed k.filed.privateKey = false) :
    Sound s (({ d with process := .up sealer (memory.put k) }).write w (rowID k.filed)
      (putKey sealer nonce k.filed d.rows) (some k.filed.stamped)) := by
  have hfiled := filed_of_stored hstored hsize
  have hphase := h.phase
  simp only [Phase, hd] at hphase
  obtain ⟨hmemory, hrows⟩ := hphase
  have hours : Ours s sealer := by
    rcases hrows with ⟨rfl, -⟩ | ⟨rfl, -⟩
    · exact ours_none
    · exact ours_some
  obtain ⟨hmade, hmissed⟩ := hmemory.put hfiled
  refine h.write hd (h.backed.putKey hfiled hours hplain) hmade hmissed ?_ ?_
  · rintro rfl hclear r hr
    rw [putKey, hfiled.toLower] at hr
    rcases Table.mem_put.mp hr with ⟨hin, -⟩ | rfl
    · exact hclear r hin
    · simpa [inClear, atRest] using hplain rfl
  · rintro rfl hsealed r hr hin
    exact hsealed r (clear_putKey hA hfiled.toLower hr hin).1 hin

theorem Sound.delete {memory : Store} {w : Written} {address strategy : String} (h : Sound s d)
    (hd : d.process = .up sealer memory) :
    Sound s (({ d with process := .up sealer (memory.delete address strategy) }).write w
      (normalize address, trimSpace strategy)
      (deleteKey (normalize address) (trimSpace strategy) d.rows) none) := by
  have hphase := h.phase
  simp only [Phase, hd] at hphase
  obtain ⟨hmade, hmissed⟩ := hphase.1.delete address strategy
  have hbacked := h.backed.deleteKey (trimSpace strategy) (toLower_folded address)
  refine h.write hd hbacked hmade hmissed ?_ ?_
  · exact fun _ hclear r hr => hclear r (Table.mem_erase.mp hr).1
  · exact fun _ hsealed r hr => hsealed r (Table.mem_erase.mp hr).1

/-- What a step can do. -/
theorem Sound.step (hA : A.Lawful) (h : Sound s d) (ha : Fits s d a) (hd : d.step a = some d') :
    Sound s d' := by
  have hdown : Sound s { d with process := .down } := ⟨h.backed, trivial⟩
  cases a with
  | start hexKey =>
    simp only [KeyDesk.step] at hd
    split at hd
    · obtain rfl := Option.some.inj hd
      refine ⟨h.backed, ?_⟩
      simp only [Phase]
      rcases started_cases hA h.backed ha with hnone | hfail | hsome
      · rw [hnone]
        exact .inl ⟨rfl, rfl⟩
      · rw [hfail]
        trivial
      · rw [hsome]
        refine .inr ⟨rfl, ?_, ?_⟩
        · intro k hk
          obtain ⟨r, hr, rfl⟩ := List.mem_map.mp hk
          have hin := (List.mem_filter.mp hr).1
          rw [h.backed.rowID_restored hin]
          exact h.backed.restored_key hin
        · intro r hr hclear
          rw [List.map_map]
          refine List.mem_map.mpr ⟨r, List.mem_filter.mpr ⟨hr, hclear⟩, ?_⟩
          exact h.backed.rowID_restored hr
    · cases hd
  | reseal nonce w =>
    simp only [KeyDesk.step] at hd
    split at hd
    · next hp =>
      cases w with
      | done =>
        obtain rfl := Option.some.inj hd
        exact (h.reseal hA hp).2
      | refused =>
        obtain rfl := Option.some.inj hd
        exact hdown
      | lost =>
        obtain rfl := Option.some.inj hd
        exact (h.reseal hA hp).1
    · cases hd
  | load =>
    simp only [KeyDesk.step] at hd
    split at hd
    · next hp =>
      split at hd
      · obtain rfl := Option.some.inj hd
        exact hdown
      · next hkeys =>
        obtain rfl := Option.some.inj hd
        exact h.load hA hp hkeys
    · cases hd
  | put k nonce w =>
    simp only [KeyDesk.step] at hd
    split at hd
    · next hp =>
      obtain rfl := Option.some.inj hd
      obtain ⟨hstored, hsize, hplain⟩ := ha
      refine h.put hA hp hstored hsize fun hnone => ?_
      subst hnone
      rw [privateKey_filed]
      exact hplain _ hp
    · cases hd
  | delete address strategy w =>
    simp only [KeyDesk.step] at hd
    split at hd
    · next hp =>
      obtain rfl := Option.some.inj hd
      exact h.delete hp
    · cases hd
  | stop =>
    obtain rfl := Option.some.inj hd
    exact hdown

theorem fresh_sound : Sound s fresh where
  backed := ⟨Table.Unique.nil, fun _ => .none, nofun⟩
  phase := trivial

theorem sound_of_run (hA : A.Lawful) (h : Run (fun d a d' => step d a = some d') (Fits s) fresh as d) :
    Sound s d :=
  h.invariant fresh_sound fun _ _ _ hi ha hd => hi.step hA ha hd

/-- However many processes there were, and whatever they sealed or failed to write: a process with
the encryption key reads back the keys whose writes were made, and a process that serves has them
in memory but for those whose last write was refused. -/
theorem keys_survive (hA : A.Lawful)
    (h : Run (fun d a d' => step d a = some d') (Fits s) fresh as d) :
    (∃ recs, keys (some s) d.rows = .ok recs ∧
      ∀ id, Table.row rowID id (recs.map KeyRecord.key) = d.kept id) ∧
    ∀ sealer memory, d.process = .up sealer memory → ∀ address strategy,
      (normalize address, trimSpace strategy) ∉ d.behind →
        (memory.get address strategy).map Key.stamped =
          d.kept (normalize address, trimSpace strategy) := by
  have hsound := sound_of_run hA h
  constructor
  · refine ⟨_, (hsound.backed.keys_eq hA ours_some).mpr ⟨nofun, rfl⟩, ?_⟩
    exact hsound.backed.row_restored
  · intro sealer memory hd address strategy hmade
    have hphase := hsound.phase
    simp only [Phase, hd] at hphase
    rw [get_eq]
    exact hphase.1.held _ hmade

/-! A key put by a process that was started with an encryption key. -/

/-- The bytes AES-256 gives for the key and the nonce here, in the order of the counter. -/
def tableStream : List Nat :=
  [71, 2, 214, 27, 197, 229, 194, 27, 141, 65, 151, 139, 177, 233, 120, 109, 131, 214, 135, 52, 240,
    123, 95, 124, 56, 103, 229, 133, 29, 105, 0, 178, 1, 16, 174, 252, 175, 193, 18, 152, 116, 164,
    127, 237, 136, 135, 40, 56, 238, 89, 96, 141, 90, 214, 163, 218, 63, 151, 42, 25, 24, 227, 245,
    238]

/-- The tag of the row here. -/
def tableTag : List Nat := [241, 90, 31, 145, 193, 75, 186, 93, 219, 137, 120, 27, 251, 60, 131, 14]

def tableAead : Aead :=
  .streamed 12 16 (fun _ _ i => tableStream.getD i 0) fun _ _ _ _ => ⟨tableTag, rfl⟩

def tableHex : String := "000102030405060708090a0b0c0d0e0f101112131415161718191a1b1c1d1e1f"

def tableSealer : Sealer tableAead := ⟨List.range 32, rfl⟩

def tableNonce : tableAead.Nonce := ⟨List.range 12, rfl⟩

def tableKey : Key where
  address := "0x00000000000000000000000000000000000000ab"
  strategy := ""
  apiKey := "token"
  privateKey :=
    [157, 97, 177, 157, 239, 253, 90, 96, 186, 132, 74, 244, 146, 236, 44, 196, 68, 73, 197, 105, 123,
      50, 105, 25, 112, 59, 172, 3, 28, 174, 127, 96, 215, 90, 152, 1, 130, 177, 10, 183, 213, 75,
      254, 211, 201, 100, 7, 58, 14, 225, 114, 243, 218, 166, 35, 37, 175, 2, 26, 104, 247, 7, 81,
      26]
  label := "TradeAgent"
  builderID := 7
  maxBuilderFeePer100K := 30
  maxBuilderFeePct := "0.03"
  derived := false
  enrolledAt := 0

/-- The desk once the key is put. -/
def tableDesk : KeyDesk tableAead where
  rows := putKey (some tableSealer) tableNonce tableKey.filed []
  process := .up (some tableSealer) (Store.put [] tableKey)
  kept := Function.update (fun _ => none) (rowID tableKey.filed) (some tableKey.filed.stamped)
  behind := []

theorem new_tableHex : Sealer.new tableHex = .ok tableSealer := by
  have hdecode : Chain.decodeHex (Chain.trimHexPrefix (trimSpace tableHex).toList) =
      some (List.range 32) := by decide +kernel
  unfold Sealer.new
  rw [hdecode]
  rfl

theorem filed_tableKey : tableKey.filed = tableKey := by
  have haddress : normalize tableKey.address = tableKey.address := by decide +kernel
  have hstrategy : trimSpace tableKey.strategy = tableKey.strategy := by decide +kernel
  rw [Key.filed, haddress, hstrategy]

theorem stored_tableKey : tableKey.filed.Stored := by
  rw [filed_tableKey]
  constructor
  · decide +kernel
  · decide +kernel
  · decide +kernel

theorem run_tableDesk : Run (fun d a d' => step d a = some d') (Fits tableSealer) fresh
    [.start tableHex, .load, .put tableKey tableNonce .done] tableDesk := by
  have hne : tableHex ≠ "" := by decide +kernel
  have hstart : step fresh (.start tableHex) =
      some ⟨[], .starting (some tableSealer) [], fun _ => none, []⟩ := by
    simp only [step, fresh, started, if_neg hne, new_tableHex]
    rfl
  refine ((Run.nil.snoc ?_ hstart).snoc trivial rfl).snoc ?_ rfl
  · intro t ht
    rw [new_tableHex] at ht
    exact (Except.ok.inj ht).symm
  · exact ⟨stored_tableKey, rfl, nofun⟩

theorem keys_survive_put :
    (∃ recs, keys (some tableSealer) tableDesk.rows = .ok recs ∧
      ∀ id, Table.row rowID id (recs.map KeyRecord.key) = tableDesk.kept id) ∧
    ∀ sealer memory, tableDesk.process = .up sealer memory → ∀ address strategy,
      (normalize address, trimSpace strategy) ∉ tableDesk.behind →
        (memory.get address strategy).map Key.stamped =
          tableDesk.kept (normalize address, trimSpace strategy) :=
  keys_survive (Aead.streamed_lawful (by decide)) run_tableDesk

end Runs

end KeyDesk

end SuperAgent.Keys
