import SuperAgent.Core.Run
import SuperAgent.Core.Table
import SuperAgent.Platform.Ledger

/-!
# Telling a trader

A device is registered for the wallet that signs in on it. When a position of a
wallet ends, its devices are read, told with one request to the push service, and
those the service no longer knows are forgotten. Registrations and the deliveries
of other trades go on between these statements, each of them may fail, and a
process that ends leaves its deliveries where they are.
-/

namespace SuperAgent.Platform

/-! ## Registering -/

/-- Where a wallet can be reached. -/
structure Device where
  token : String
  wallet : String
  platform : String
  seenAt : Time
  deriving DecidableEq

/-- What a refused request is answered with. -/
structure DeviceRefusal where
  status : ℕ
  error : String
  message : String
  deriving DecidableEq

/-- The registration a request asks for, on an account. -/
def registerDevice (account token platform : String) (now : Time) :
    Except DeviceRefusal Device :=
  let wallet := toLower (trimSpace account)
  if wallet = "" then
    .error ⟨403, "sign_in", "sign in with a passkey to be notified"⟩
  else
    let token := trimSpace token
    let platform := toLower (trimSpace platform)
    if token = "" ∨ platform ≠ "ios" ∧ platform ≠ "android" then
      .error ⟨400, "bad_request", "a token and a platform of ios or android are required"⟩
    else .ok ⟨token, wallet, platform, now⟩

/-- How a registration is kept. -/
def Device.saved (d : Device) : Device := { d with wallet := toLower d.wallet }

def saveDevice (d : Device) (rows : List Device) : List Device :=
  Table.put Device.token d.saved rows

/-- The tokens registered for a wallet. -/
def devices (wallet : String) (rows : List Device) : List String :=
  (rows.filter fun d => d.wallet = toLower wallet).map Device.token

def forgetDevice (token : String) (rows : List Device) : List Device :=
  Table.erase Device.token token rows

/-! ## What is said -/

/-- The market and what closed it. -/
def closedWords (t : Trade) : String × String :=
  let symbol := toUpper t.symbol
  match t.reason with
  | .stop =>
    (symbol ++ " hit your stop", "The stop closed the position. Open it to see the result.")
  | .takeProfit => (symbol ++ " hit your target",
      "The take-profit closed the position. Open it to see the result.")
  | .horizon => (symbol ++ " is done",
      "Time is up and the position is closed. Open it to see how it went.")
  | .manual =>
    let title := symbol ++ " is done"
    if t.closedAt.toUnix % 3 = 0 then (title, "Your position closed. Open it to see how it went.")
    else if t.closedAt.toUnix % 3 = 1 then (title, "That one has a result waiting for you.")
    else (title, "The position is closed — come and read it.")

/-- The text of a reason. -/
def CloseReason.text : CloseReason → String
  | .manual => "manual"
  | .horizon => "horizon"
  | .stop => "stop"
  | .takeProfit => "take_profit"

/-- A notification. -/
structure ExpoMessage where
  «to» : String
  title : String
  body : String
  sound : String
  data : List (String × String)
  priority : String
  deriving DecidableEq

/-- What a device is told of a trade, whose reference has a text where there is one. -/
def expoMessage (refText : Trade → Option String) (t : Trade) (token : String) : ExpoMessage where
  «to» := token
  title := (closedWords t).1
  body := (closedWords t).2
  sound := "default"
  data := [("kind", "closed"), ("symbol", t.symbol), ("strategy", t.strategy),
    ("reason", t.reason.text)] ++ ((refText t).map fun r => ("trade", r)).toList
  priority := "high"

/-- What the push service says of one message. -/
structure PushReceipt where
  status : String
  error : String
  deriving DecidableEq

/-- The service does not know the device. -/
def PushReceipt.Dead (r : PushReceipt) : Prop := r.status ≠ "ok" ∧ r.error = "DeviceNotRegistered"

instance (r : PushReceipt) : Decidable r.Dead := inferInstanceAs (Decidable (_ ∧ _))

/-- What becomes of a request to the push service. -/
inductive PushAnswer
  | notSent
  | refused (status : ℕ)
  | unreadable
  | replied (data : List PushReceipt)
  deriving DecidableEq

/-- The tokens of messages, in order, that the service does not know. -/
def deadTokens (tokens : List String) : PushAnswer → List String
  | .replied data => ((tokens.zip data).filter fun p => p.2.Dead).map Prod.fst
  | _ => []

/-! ## Deliveries -/

/-- How far a delivery has come. -/
inductive DeliveryPhase
  | reading
  | posting (tokens : List String)
  | forgetting (todo : List String)
  | finished
  deriving DecidableEq

structure Delivery where
  trade : Trade
  phase : DeliveryPhase
  deriving DecidableEq

/-- A request to the push service. -/
structure Posting where
  delivery : ℕ
  messages : List ExpoMessage
  answer : PushAnswer
  deriving DecidableEq

/-- The registered devices, the deliveries by number, and the requests there were. -/
structure Notices where
  rows : List Device
  deliveries : List Delivery
  posted : List Posting

/-- One statement at a time. -/
inductive Notice
  /-- A device is registered; the write may fail. -/
  | register (account token platform : String) (now : Time) (written : Bool)
  | closed (t : Trade)
  | read (i : ℕ) (ok : Bool)
  | post (i : ℕ) (answer : PushAnswer)
  | forget (i : ℕ) (token : String) (written : Bool)
  /-- The process ends, and with it its deliveries. -/
  | stop

namespace Notices

def start : Notices := ⟨[], [], []⟩

def move (s : Notices) (i : ℕ) (t : Trade) (phase : DeliveryPhase) : Notices :=
  { s with deliveries := s.deliveries.set i ⟨t, phase⟩ }

def step (refText : Trade → Option String) (s : Notices) : Notice → Option Notices
  | .register account token platform now written =>
    match registerDevice account token platform now with
    | .error _ => some s
    | .ok d => some { s with rows := if written then saveDevice d s.rows else s.rows }
  | .closed t =>
    if t.wallet = "" then some s
    else some { s with deliveries := s.deliveries ++ [⟨t, .reading⟩] }
  | .read i ok =>
    match s.deliveries[i]? with
    | some ⟨t, .reading⟩ =>
      let tokens := if ok then devices t.wallet s.rows else []
      some (s.move i t (if tokens = [] then .finished else .posting tokens))
    | _ => none
  | .post i answer =>
    match s.deliveries[i]? with
    | some ⟨t, .posting tokens⟩ =>
      some { s.move i t (.forgetting (deadTokens tokens answer)) with
        posted := s.posted ++ [⟨i, tokens.map (expoMessage refText t), answer⟩] }
    | _ => none
  | .forget i token written =>
    match s.deliveries[i]? with
    | some ⟨t, .forgetting (next :: todo)⟩ =>
      if next = token then
        some { s.move i t (.forgetting todo) with
          rows := if written then forgetDevice token s.rows else s.rows }
      else none
    | _ => none
  | .stop => some { s with deliveries := s.deliveries.map fun x => { x with phase := .finished } }

end Notices

/-! ## What was registered -/

/-- What a statement does to a token's registration. -/
def registering (holder : String → Option Device) : Notice → String → Option Device
  | .register account token platform now true =>
    match registerDevice account token platform now with
    | .error _ => holder
    | .ok d => Function.update holder d.token (some d.saved)
  | _ => holder

/-- The last registration of each token. -/
def registrations (as : List Notice) : String → Option Device :=
  as.foldl registering fun _ => none

/-- The same, where a token may be forgotten. -/
def holderAfter (holder : String → Option Device) : Notice → String → Option Device
  | .forget _ token true => Function.update holder token none
  | a => registering holder a

/-- The registration each token has. -/
def holders (as : List Notice) : String → Option Device :=
  as.foldl holderAfter fun _ => none

/-- The trades that are told, by the numbers of their deliveries. -/
def closings (as : List Notice) : List Trade :=
  as.filterMap fun
    | .closed t => if t.wallet = "" then none else some t
    | _ => none

/-- A delivery read these tokens: its trade had closed, and they were those of the devices
registered for the trade's wallet then. -/
def DevicesRead (as : List Notice) (i : ℕ) (t : Trade) (tokens : List String) : Prop :=
  tokens.Nodup ∧ ∃ before after, as = before ++ .read i true :: after ∧
    (closings before)[i]? = some t ∧
    ∀ token, token ∈ tokens ↔
      ∃ d, holders before token = some d ∧ d.wallet = toLower t.wallet

/-- The service was told of a device that it does not know. -/
def Posting.Dead (p : Posting) (token : String) : Prop :=
  ∃ (k : ℕ) (m : ExpoMessage) (data : List PushReceipt) (r : PushReceipt),
    p.messages[k]? = some m ∧ m.to = token ∧ p.answer = .replied data ∧ data[k]? = some r ∧ r.Dead

/-! ## Facts that stay -/

section Facts

variable {refText : Trade → Option String} {as : List Notice} {a : Notice} {i j : ℕ}
  {token : String} {tokens : List String} {t : Trade} {s s' : Notices}

theorem registrations_concat : registrations (as ++ [a]) = registering (registrations as) a := by
  simp [registrations]

theorem holders_concat : holders (as ++ [a]) = holderAfter (holders as) a := by
  simp [holders]

theorem closings_append {bs : List Notice} : closings (as ++ bs) = closings as ++ closings bs :=
  List.filterMap_append

theorem DevicesRead.concat (h : DevicesRead as i t tokens) : DevicesRead (as ++ [a]) i t tokens := by
  obtain ⟨hnodup, before, after, rfl, hclosed, htokens⟩ := h
  exact ⟨hnodup, before, after ++ [a], by simp, hclosed, htokens⟩

/-- A delivery that has read has a number that is taken. -/
theorem DevicesRead.lt (h : DevicesRead as i t tokens) : i < (closings as).length := by
  obtain ⟨-, before, after, rfl, hclosed, -⟩ := h
  have hlt := (List.getElem?_eq_some_iff.mp hclosed).1
  rw [closings_append, List.length_append]
  omega

/-- The tokens to forget are those whose messages were answered so. -/
theorem Posting.dead_iff (p : Posting) (token : String) :
    p.Dead token ↔ token ∈ deadTokens (p.messages.map ExpoMessage.to) p.answer := by
  obtain ⟨n, messages, answer⟩ := p
  cases answer with
  | replied data =>
    simp only [Posting.Dead, deadTokens, List.mem_map, List.mem_filter, decide_eq_true_eq]
    constructor
    · rintro ⟨k, m, data, r, hm, rfl, heq, hr, hdead⟩
      obtain rfl := PushAnswer.replied.inj heq
      refine ⟨(m.to, r), ⟨List.mem_iff_getElem?.mpr ⟨k, ?_⟩, hdead⟩, rfl⟩
      rw [List.getElem?_zip_eq_some, List.getElem?_map, hm]
      exact ⟨rfl, hr⟩
    · rintro ⟨⟨token, r⟩, ⟨hmem, hdead⟩, rfl⟩
      obtain ⟨k, hk⟩ := List.mem_iff_getElem?.mp hmem
      obtain ⟨htoken, hr⟩ := List.getElem?_zip_eq_some.mp hk
      rw [List.getElem?_map] at htoken
      obtain ⟨m, hm, hto⟩ := Option.map_eq_some_iff.mp htoken
      exact ⟨k, m, data, r, hm, hto, rfl, hr, hdead⟩
  | _ =>
    constructor
    · rintro ⟨-, -, data, -, -, -, heq, -⟩
      cases heq
    · intro hin
      cases hin

instance (p : Posting) (token : String) : Decidable (p.Dead token) :=
  decidable_of_iff _ (p.dead_iff token).symm

namespace Notices

/-- A delivery that goes on leaves the others as they are. -/
theorem trades_move {x : Delivery} {phase : DeliveryPhase} (hx : s.deliveries[i]? = some x) :
    (s.move i x.trade phase).deliveries.map Delivery.trade = s.deliveries.map Delivery.trade := by
  obtain ⟨hi, rfl⟩ := List.getElem?_eq_some_iff.mp hx
  apply List.ext_getElem?
  intro j
  by_cases hj : j = i
  · subst hj
    simp [move, hi]
  · simp [move, Ne.symm hj]

theorem getElem?_move {x y : Delivery} {phase : DeliveryPhase} (hx : s.deliveries[i]? = some x) :
    (s.move i t phase).deliveries[j]? = some y ↔
      j = i ∧ y = ⟨t, phase⟩ ∨ j ≠ i ∧ s.deliveries[j]? = some y := by
  have hi := (List.getElem?_eq_some_iff.mp hx).1
  by_cases hj : j = i
  · subst hj
    simp [move, hi, eq_comm]
  · simp [move, hj, Ne.symm hj]

end Notices

/-- What holds of a delivery, by how far it has come. -/
def Delivery.Fine (as : List Notice) (posted : List Posting) (i : ℕ) (x : Delivery) : Prop :=
  match x.phase with
  | .reading => ∀ p ∈ posted, p.delivery ≠ i
  | .posting tokens => (∀ p ∈ posted, p.delivery ≠ i) ∧ DevicesRead as i x.trade tokens
  | .forgetting todo => ∀ token ∈ todo, ∃ p ∈ posted, p.Dead token
  | .finished => True

namespace Delivery.Fine

variable {x : Delivery} {posted : List Posting} {p : Posting}

theorem concat (h : x.Fine as posted i) : x.Fine (as ++ [a]) posted i := by
  obtain ⟨t, phase⟩ := x
  cases phase with
  | posting tokens => exact ⟨h.1, h.2.concat⟩
  | _ => exact h

/-- The request of another delivery changes nothing. -/
theorem post (h : x.Fine as posted i) (hp : p.delivery ≠ i) : x.Fine as (posted ++ [p]) i := by
  have hother (hne : ∀ q ∈ posted, q.delivery ≠ i) : ∀ q ∈ posted ++ [p], q.delivery ≠ i := by
    intro q hq
    obtain hq | hq := List.mem_append.mp hq
    · exact hne q hq
    · obtain rfl := List.mem_singleton.mp hq
      exact hp
  obtain ⟨t, phase⟩ := x
  cases phase with
  | reading => exact hother h
  | posting tokens => exact ⟨hother h.1, h.2⟩
  | forgetting todo =>
    intro token htoken
    obtain ⟨q, hq, hdead⟩ := h token htoken
    exact ⟨q, List.mem_append_left _ hq, hdead⟩
  | finished => trivial

end Delivery.Fine

namespace Notices

/-- What holds after the statements so far. -/
structure Sound (refText : Trade → Option String) (as : List Notice) (s : Notices) : Prop where
  unique : Table.Unique Device.token s.rows
  row : ∀ token, Table.row Device.token token s.rows = holders as token
  deliveries : ∀ (i : ℕ) (x : Delivery), s.deliveries[i]? = some x → x.Fine as s.posted i
  trades : s.deliveries.map Delivery.trade = closings as
  posted : ∀ p ∈ s.posted, ∃ t tokens, p.messages = tokens.map (expoMessage refText t) ∧
    DevicesRead as p.delivery t tokens
  once : (s.posted.map Posting.delivery).Nodup
  kept : ∀ token, (∀ p ∈ s.posted, ¬ p.Dead token) → holders as token = registrations as token

theorem sound_start : Sound refText [] start := by
  constructor
  · exact .nil
  · exact fun _ => rfl
  · exact fun i x h => by cases h
  · rfl
  · exact fun p h => by cases h
  · exact List.nodup_nil
  · exact fun _ _ => rfl

namespace Sound

/-- The tokens a delivery reads are those of its wallet's devices. -/
theorem read_devices {phase : DeliveryPhase} (h : Sound refText as s)
    (hx : s.deliveries[i]? = some ⟨t, phase⟩) :
    DevicesRead (as ++ [.read i true]) i t (devices t.wallet s.rows) := by
  refine ⟨?_, as, [], by simp, ?_, fun token => ?_⟩
  · exact List.Sublist.nodup (List.filter_sublist.map Device.token) h.unique
  · rw [← h.trades, List.getElem?_map, hx, Option.map_some]
  · simp only [devices, List.mem_map, List.mem_filter, decide_eq_true_eq]
    constructor
    · rintro ⟨d, ⟨hd, hwallet⟩, rfl⟩
      exact ⟨d, (h.row d.token).symm.trans (h.unique.row_self hd), hwallet⟩
    · rintro ⟨d, hd, hwallet⟩
      obtain ⟨hmem, htoken⟩ := Table.mem_of_row ((h.row token).trans hd)
      exact ⟨d, ⟨hmem, hwallet⟩, htoken⟩

/-- A statement that moves one delivery, and the devices the way it says. -/
theorem moves {x : Delivery} {phase : DeliveryPhase} {rows : List Device} (h : Sound refText as s)
    (hx : s.deliveries[i]? = some x) (hopens : closings [a] = [])
    (hfine : Delivery.Fine (as ++ [a]) s.posted i ⟨x.trade, phase⟩)
    (hunique : Table.Unique Device.token rows)
    (hrow : ∀ token, Table.row Device.token token rows = holders (as ++ [a]) token)
    (hkept : ∀ token, (∀ p ∈ s.posted, ¬ p.Dead token) →
      holders (as ++ [a]) token = registrations (as ++ [a]) token) :
    Sound refText (as ++ [a]) { s.move i x.trade phase with rows := rows } := by
  constructor
  · exact hunique
  · exact hrow
  · intro j y hy
    obtain ⟨rfl, rfl⟩ | ⟨-, hy⟩ := (getElem?_move hx).mp hy
    · exact hfine
    · exact (h.deliveries j y hy).concat
  · rw [closings_append, hopens, List.append_nil, ← h.trades]
    exact trades_move hx
  · intro p hp
    obtain ⟨t, tokens, hmessages, hread⟩ := h.posted p hp
    exact ⟨t, tokens, hmessages, hread.concat⟩
  · exact h.once
  · exact hkept

/-- A statement that says nothing about devices leaves them registered as they were. -/
theorem holders_concat_of_silent (h : Sound refText as s)
    (hsilent : ∀ holder, holderAfter holder a = holder ∧ registering holder a = holder) :
    (∀ token, Table.row Device.token token s.rows = holders (as ++ [a]) token) ∧
      ∀ token, (∀ p ∈ s.posted, ¬ p.Dead token) →
        holders (as ++ [a]) token = registrations (as ++ [a]) token := by
  rw [holders_concat, registrations_concat, (hsilent _).1, (hsilent _).2]
  exact ⟨h.row, h.kept⟩

/-- Nothing happens to the devices and the deliveries. -/
theorem stays (h : Sound refText as s) (hopens : closings [a] = [])
    (hsilent : ∀ holder, holderAfter holder a = holder ∧ registering holder a = holder) :
    Sound refText (as ++ [a]) s := by
  obtain ⟨hrow, hkept⟩ := h.holders_concat_of_silent hsilent
  refine ⟨h.unique, hrow, fun j y hy => (h.deliveries j y hy).concat, ?_, fun p hp => ?_, h.once,
    hkept⟩
  · rw [closings_append, hopens, List.append_nil, h.trades]
  · obtain ⟨t, tokens, hmessages, hread⟩ := h.posted p hp
    exact ⟨t, tokens, hmessages, hread.concat⟩

theorem step_register {account token' platform : String} {now : Time} {written : Bool}
    (h : Sound refText as s)
    (hs : s.step refText (.register account token' platform now written) = some s') :
    Sound refText (as ++ [.register account token' platform now written]) s' := by
  simp only [step] at hs
  cases hd : registerDevice account token' platform now with
  | error e =>
    simp only [hd, Option.some.injEq] at hs
    subst hs
    refine h.stays rfl fun holder => ?_
    cases written <;> simp [holderAfter, registering, hd]
  | ok d =>
    simp only [hd, Option.some.injEq] at hs
    cases written with
    | false =>
      simp only [Bool.false_eq_true, if_false] at hs
      subst hs
      exact h.stays rfl fun holder => ⟨rfl, rfl⟩
    | true =>
      simp only [if_true] at hs
      subst hs
      have hsaved (holder : String → Option Device) :
          registering holder (.register account token' platform now true) =
              Function.update holder d.token (some d.saved) ∧
            holderAfter holder (.register account token' platform now true) =
              Function.update holder d.token (some d.saved) := by
        simp [holderAfter, registering, hd]
      refine ⟨h.unique.put, fun token => ?_, fun j y hy => (h.deliveries j y hy).concat, ?_,
        fun p hp => ?_, h.once, fun token hlive => ?_⟩
      · rw [saveDevice, Table.row_put, holders_concat, (hsaved _).2, Function.update_apply, h.row]
        rfl
      · rw [closings_append, h.trades]
        exact (List.append_nil _).symm
      · obtain ⟨t, tokens, hmessages, hread⟩ := h.posted p hp
        exact ⟨t, tokens, hmessages, hread.concat⟩
      · rw [holders_concat, registrations_concat, (hsaved _).1, (hsaved _).2,
          Function.update_apply, Function.update_apply, h.kept token hlive]

theorem step_closed (h : Sound refText as s) (hs : s.step refText (.closed t) = some s') :
    Sound refText (as ++ [.closed t]) s' := by
  obtain ⟨hrow, hkept⟩ := h.holders_concat_of_silent (a := .closed t) fun holder => ⟨rfl, rfl⟩
  rw [step] at hs
  split at hs
  · next hnobody =>
    obtain rfl := Option.some.inj hs
    exact h.stays (by simp [closings, hnobody]) fun holder => ⟨rfl, rfl⟩
  · next hwallet =>
    obtain rfl := Option.some.inj hs
    refine ⟨h.unique, hrow, fun j y hy => ?_, ?_, fun p hp => ?_, h.once, hkept⟩
    · obtain hy | ⟨rfl, rfl⟩ : s.deliveries[j]? = some y ∨
          j = s.deliveries.length ∧ y = ⟨t, .reading⟩ := by
        rw [List.getElem?_append] at hy
        split at hy
        · exact .inl hy
        · cases hj : j - s.deliveries.length with
          | zero =>
            rw [hj] at hy
            exact .inr ⟨by omega, (Option.some.inj hy).symm⟩
          | succ k =>
            rw [hj] at hy
            cases hy
      · exact (h.deliveries j y hy).concat
      · -- What was posted is of deliveries before this one.
        intro p hp heq
        obtain ⟨t, tokens, -, hread⟩ := h.posted p hp
        have hlt := hread.lt
        rw [← h.trades, List.length_map] at hlt
        omega
    · simp [h.trades, closings, hwallet]
    · obtain ⟨t, tokens, hmessages, hread⟩ := h.posted p hp
      exact ⟨t, tokens, hmessages, hread.concat⟩

theorem step_read {ok : Bool} (h : Sound refText as s)
    (hs : s.step refText (.read i ok) = some s') : Sound refText (as ++ [.read i ok]) s' := by
  simp only [step] at hs
  split at hs
  · next t hx =>
    obtain rfl := Option.some.inj hs
    obtain ⟨hrow, hkept⟩ := h.holders_concat_of_silent (a := .read i ok) fun holder => ⟨rfl, rfl⟩
    refine h.moves hx rfl ?_ h.unique hrow hkept
    generalize htokens : (if ok = true then devices t.wallet s.rows else []) = tokens
    by_cases hnone : tokens = []
    · rw [if_pos hnone]
      trivial
    · rw [if_neg hnone]
      cases ok with
      | false => exact absurd htokens.symm hnone
      | true =>
        subst htokens
        exact ⟨h.deliveries i _ hx, h.read_devices hx⟩
  · cases hs

theorem step_forget {token' : String} {written : Bool} (h : Sound refText as s)
    (hs : s.step refText (.forget i token' written) = some s') :
    Sound refText (as ++ [.forget i token' written]) s' := by
  simp only [step] at hs
  split at hs
  · next t next todo hx =>
    split at hs
    · next hnext =>
      subst hnext
      obtain rfl := Option.some.inj hs
      have hdead : ∀ token ∈ next :: todo, ∃ p ∈ s.posted, p.Dead token := h.deliveries i _ hx
      have hfine : Delivery.Fine (as ++ [.forget i next written]) s.posted i
          ⟨t, .forgetting todo⟩ := fun token hin => hdead token (List.mem_cons_of_mem _ hin)
      cases written with
      | false =>
        obtain ⟨hrow, hkept⟩ :=
          h.holders_concat_of_silent (a := .forget i next false) fun holder => ⟨rfl, rfl⟩
        exact h.moves hx rfl hfine h.unique hrow hkept
      | true =>
        refine h.moves hx rfl hfine h.unique.erase (fun token => ?_) fun token hlive => ?_
        · simp only [if_true, forgetDevice, Table.row_erase, holders_concat, holderAfter,
            Function.update_apply, h.row]
        · obtain ⟨p, hp, hpdead⟩ := hdead next List.mem_cons_self
          have hne : token ≠ next := fun heq => hlive p hp (heq ▸ hpdead)
          rw [holders_concat, registrations_concat, holderAfter, Function.update_of_ne hne]
          exact h.kept token hlive
    · cases hs
  · cases hs

theorem step_post {answer : PushAnswer} (h : Sound refText as s)
    (hs : s.step refText (.post i answer) = some s') :
    Sound refText (as ++ [.post i answer]) s' := by
  simp only [step] at hs
  split at hs
  · next t tokens hx =>
    obtain rfl := Option.some.inj hs
    have hstays := h.stays (a := .post i answer) rfl fun holder => ⟨rfl, rfl⟩
    obtain ⟨hfresh, hread⟩ : (∀ p ∈ s.posted, p.delivery ≠ i) ∧ DevicesRead _ i t tokens :=
      hstays.deliveries i _ hx
    refine ⟨h.unique, hstays.row, fun j y hy => ?_, ?_, fun p hp => ?_, ?_, fun token hlive => ?_⟩
    · obtain ⟨rfl, rfl⟩ | ⟨hj, hy⟩ := (getElem?_move hx).mp hy
      · intro token hin
        refine ⟨_, List.mem_append_right _ List.mem_cons_self, (Posting.dead_iff _ _).mpr ?_⟩
        rw [List.map_map]
        simpa [Function.comp_def, expoMessage] using hin
      · exact (hstays.deliveries j y hy).post (Ne.symm hj)
    · rw [← hstays.trades]
      exact trades_move hx
    · obtain hp | hp := List.mem_append.mp hp
      · exact hstays.posted p hp
      · obtain rfl := List.mem_singleton.mp hp
        exact ⟨t, tokens, rfl, hread⟩
    · rw [List.map_append]
      refine h.once.append (List.nodup_singleton _) fun k hk hki => ?_
      obtain ⟨p, hp, rfl⟩ := List.mem_map.mp hk
      exact hfresh p hp (List.mem_singleton.mp hki)
    · exact hstays.kept token fun p hp => hlive p (List.mem_append_left _ hp)
  · cases hs

theorem step_stop (h : Sound refText as s) (hs : s.step refText .stop = some s') :
    Sound refText (as ++ [.stop]) s' := by
  obtain rfl := Option.some.inj hs
  have hstays := h.stays (a := .stop) rfl fun holder => ⟨rfl, rfl⟩
  refine ⟨h.unique, hstays.row, fun j y hy => ?_, ?_, hstays.posted, h.once, hstays.kept⟩
  · rw [List.getElem?_map] at hy
    obtain ⟨x, -, rfl⟩ := Option.map_eq_some_iff.mp hy
    trivial
  · rw [← hstays.trades, List.map_map]
    rfl

theorem step (h : Sound refText as s) (hs : s.step refText a = some s') :
    Sound refText (as ++ [a]) s' := by
  cases a with
  | register => exact h.step_register hs
  | closed => exact h.step_closed hs
  | read => exact h.step_read hs
  | post => exact h.step_post hs
  | forget => exact h.step_forget hs
  | stop => exact h.step_stop hs

end Sound

/-- What holds in every run. -/
theorem sound_of_run (h : Run (fun s a s' => s.step refText a = some s') Always start as s) :
    Sound refText as s := by
  induction h with
  | nil => exact sound_start
  | snoc _ _ hs ih => exact ih.step hs

/-- A trade that closed is told at most once, with one message for each device that was registered
for its wallet at one moment after it had closed, and for no other device. -/
theorem told_once (h : Run (fun s a s' => s.step refText a = some s') Always start as s) :
    (s.posted.map Posting.delivery).Nodup ∧
      ∀ p ∈ s.posted, ∃ t tokens, p.messages = tokens.map (expoMessage refText t) ∧
        DevicesRead as p.delivery t tokens :=
  ⟨(sound_of_run h).once, (sound_of_run h).posted⟩

/-- A phone and a tablet of one wallet, of which the tablet has dropped the app. -/
def twoDevices : List Notice :=
  [.register " 0xAB" "phone" "iOS" 0 true, .register "0xab" "tablet" "android" 1 true,
    .register "0xcd" "other" "ios" 2 true,
    .closed ⟨"0xab", "orb", "btc", 0, 0, 9, "7", ⟨.long, 1, 2, 0, 0⟩, ⟨.long, 1, 2, 0, 0⟩, .stop⟩,
    .read 0 true, .post 0 (.replied [⟨"ok", ""⟩, ⟨"error", "DeviceNotRegistered"⟩]),
    .forget 0 "tablet" true]

theorem told_once_two : ∃ s, exec (fun s a => s.step (fun _ => none) a) start twoDevices = some s ∧
    s.posted.length = 1 ∧ (s.posted.map Posting.delivery).Nodup ∧
    ∀ p ∈ s.posted, ∃ t tokens, p.messages = tokens.map (expoMessage (fun _ => none) t) ∧
      DevicesRead twoDevices p.delivery t tokens := by
  have hlen : (exec (fun s a => s.step (fun _ => none) a) start twoDevices).map
      (fun s => s.posted.length) = some 1 := by decide +kernel
  obtain ⟨s, hs, hlen⟩ := Option.map_eq_some_iff.mp hlen
  exact ⟨s, hs, hlen, told_once (Run.of_exec hs fun _ _ _ => trivial)⟩

/-- A device stays registered, the way it last was, until the push service does not know it. -/
theorem kept_until_dead (h : Run (fun s a s' => s.step refText a = some s') Always start as s)
    (hlive : ∀ p ∈ s.posted, ¬ p.Dead token) :
    Table.row Device.token token s.rows = registrations as token :=
  ((sound_of_run h).row token).trans ((sound_of_run h).kept token hlive)

theorem kept_until_dead_two : ∃ s, exec (fun s a => s.step (fun _ => none) a) start twoDevices =
    some s ∧ s.posted.length = 1 ∧
      Table.row Device.token "phone" s.rows = registrations twoDevices "phone" := by
  have hlive : (exec (fun s a => s.step (fun _ => none) a) start twoDevices).map
      (fun s => (s.posted.length, decide (∀ p ∈ s.posted, ¬ p.Dead "phone"))) = some (1, true) := by
    decide +kernel
  obtain ⟨s, hs, hlive⟩ := Option.map_eq_some_iff.mp hlive
  obtain ⟨hlen, hlive⟩ := Prod.mk.inj hlive
  exact ⟨s, hs, hlen, kept_until_dead (Run.of_exec hs fun _ _ _ => trivial) (by simpa using hlive)⟩

end Notices

end Facts

end SuperAgent.Platform
