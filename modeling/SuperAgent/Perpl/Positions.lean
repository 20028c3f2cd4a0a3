import SuperAgent.Core.Keyed
import SuperAgent.Core.Run
import SuperAgent.Perpl.Convert
import Mathlib.Data.List.Forall2

/-!
# The adapter's positions

Position frames reach the adapter's map through a channel that drops what it
has no room for. A snapshot is handled as any update: each of its entries is
noted, and what it leaves out stays.
-/

namespace SuperAgent.Perpl

open Venue (Position)

/-! ## The feed -/

/-- How many positions the adapter's channel holds. -/
def positionsBuffer : Nat := 256

/-- Append to a channel, or drop what it has no room for. -/
def trySend {α : Type*} (ch : List α) (v : α) : List α :=
  if ch.length < positionsBuffer then ch ++ [v] else ch

/-- Note positions one after the other: an open one takes its id's place, any other empties it. -/
abbrev track : (Nat → Option WirePosition) → List WirePosition → Nat → Option WirePosition :=
  notes WirePosition.positionID WirePosition.isOpen

/-- Where the trading connection stands. -/
inductive Link
  | down
  /-- Signed in, with the positions snapshot still to come. -/
  | fresh
  | live
  deriving DecidableEq

/-- The position frames on their way to the adapter's map. -/
structure PositionFeed where
  link : Link
  /-- The entries of the frame under way that were not broadcast yet. -/
  frame : List WirePosition
  /-- The adapter's channel. -/
  channel : List WirePosition
  /-- The position taken from the channel and not noted yet. -/
  taken : Option WirePosition
  /-- The adapter's map. -/
  positions : Nat → Option WirePosition
  /-- The positions open according to the latest snapshot and the updates after it. -/
  told : Nat → Option WirePosition

/-- What happens next. -/
inductive FeedAction
  | connected
  /-- The snapshot of a new connection: every open position, once. -/
  | snapshot (data : List WirePosition)
  | update (data : List WirePosition)
  /-- The next entry of the frame is offered to the channel. -/
  | broadcast
  | took
  | noted
  | disconnected

namespace PositionFeed

/-- Nothing was ever heard. -/
def start : PositionFeed := ⟨.down, [], [], none, fun _ => none, fun _ => none⟩

/-- The feed after an action, when the action is possible. The reader handles one frame after
the other, and learns of a lost connection between two. -/
def next (w : PositionFeed) : FeedAction → Option PositionFeed
  | .connected => if w.link = .down then some { w with link := .fresh } else none
  | .snapshot data =>
    if w.link = .fresh ∧ w.frame = [] ∧ (data.map WirePosition.positionID).Nodup ∧
        data.all WirePosition.isOpen then
      some { w with link := .live, frame := data, told := track (fun _ => none) data }
    else none
  | .update data =>
    if w.link = .live ∧ w.frame = [] then
      some { w with frame := data, told := track w.told data }
    else none
  | .broadcast =>
    match w.frame with
    | [] => none
    | p :: rest => some { w with frame := rest, channel := trySend w.channel p }
  | .took =>
    match w.taken, w.channel with
    | none, p :: rest => some { w with taken := some p, channel := rest }
    | _, _ => none
  | .noted => w.taken.map fun p => { w with taken := none, positions := track w.positions [p] }
  | .disconnected =>
    if w.link ≠ .down ∧ w.frame = [] then some { w with link := .down } else none

/-- One step. -/
abbrev Step (w : PositionFeed) (act : FeedAction) (w' : PositionFeed) : Prop := w.next act = some w'

/-- What is on its way to the map, in order. -/
def pending (w : PositionFeed) : List WirePosition := w.taken.toList ++ w.channel ++ w.frame

/-- Every frame has been processed. -/
def Quiet (w : PositionFeed) : Prop := w.frame = [] ∧ w.channel = [] ∧ w.taken = none

instance (w : PositionFeed) : Decidable w.Quiet := inferInstanceAs (Decidable (_ ∧ _ ∧ _))

/-- A snapshot lists every position the last frames left open, and the channel has room for
each entry it is offered. -/
def Heard (w : PositionFeed) : FeedAction → Prop
  | .snapshot data => ∀ id, w.told id ≠ none → id ∈ data.map WirePosition.positionID
  | .broadcast => w.channel.length < positionsBuffer
  | _ => True

/-! ## What a step does to the view -/

/-- Once everything under way is noted, the map is what the venue told. -/
structure Agrees (w : PositionFeed) : Prop where
  told : track w.positions w.pending = w.told
  filed : Filed WirePosition.positionID WirePosition.isOpen w.told

variable {w w' : PositionFeed} {act : FeedAction} {data : List WirePosition}

theorem start_agrees : start.Agrees := ⟨rfl, nofun⟩

/-- After a snapshot the map will be what the venue told exactly when the snapshot lists every
position known before. -/
theorem Agrees.snapshot_iff (h : w.Agrees) (hframe : w.frame = []) (link : Link) :
    track w.positions ({ w with link, frame := data } : PositionFeed).pending =
      track (fun _ => none) data ↔
      ∀ id, w.told id ≠ none → id ∈ data.map WirePosition.positionID := by
  have hpending : ({ w with link, frame := data } : PositionFeed).pending = w.pending ++ data := by
    simp only [pending, hframe, List.append_nil]
  rw [hpending, track, notes_append, show notes _ _ w.positions w.pending = w.told from h.told]
  exact notes_eq_fresh_iff

/-- One step in which nothing is left out and nothing is dropped keeps the map in line. -/
theorem Agrees.step (h : w.Agrees) (hok : w.Heard act) (hs : w.Step act w') : w'.Agrees := by
  cases act with
  | connected =>
    simp only [Step, next, Option.ite_none_right_eq_some, Option.some.injEq] at hs
    obtain ⟨-, rfl⟩ := hs
    exact ⟨h.told, h.filed⟩
  | snapshot data =>
    simp only [Step, next, Option.ite_none_right_eq_some, Option.some.injEq] at hs
    obtain ⟨⟨-, hframe, -, -⟩, rfl⟩ := hs
    exact ⟨(h.snapshot_iff hframe .live).mpr hok, Filed.notes nofun data⟩
  | update data =>
    simp only [Step, next, Option.ite_none_right_eq_some, Option.some.injEq] at hs
    obtain ⟨⟨-, hframe⟩, rfl⟩ := hs
    refine ⟨?_, h.filed.notes data⟩
    have hold := h.told
    simp only [pending, hframe, List.append_nil] at hold
    calc track w.positions (w.taken.toList ++ w.channel ++ data)
        = track (track w.positions (w.taken.toList ++ w.channel)) data := notes_append
      _ = track w.told data := by rw [hold]
  | broadcast =>
    simp only [Step, next] at hs
    split at hs
    · cases hs
    · next p rest hframe =>
      obtain rfl := Option.some.inj hs
      refine ⟨?_, h.filed⟩
      have hold := h.told
      simp only [pending, hframe] at hold
      change track w.positions (w.taken.toList ++ trySend w.channel p ++ rest) = w.told
      have hroom : trySend w.channel p = w.channel ++ [p] := if_pos hok
      rw [hroom, ← hold]
      simp only [List.append_assoc, List.singleton_append]
  | took =>
    simp only [Step, next] at hs
    split at hs
    · next p rest htaken hchannel =>
      obtain rfl := Option.some.inj hs
      refine ⟨?_, h.filed⟩
      have hold := h.told
      simp only [pending, htaken, hchannel, Option.toList_none, List.nil_append] at hold
      exact hold
    · cases hs
  | noted =>
    simp only [Step, next] at hs
    obtain ⟨p, htaken, rfl⟩ := Option.map_eq_some_iff.mp hs
    refine ⟨?_, h.filed⟩
    have hold := h.told
    simp only [pending, htaken, Option.toList_some, List.singleton_append] at hold
    exact hold
  | disconnected =>
    simp only [Step, next, Option.ite_none_right_eq_some, Option.some.injEq] at hs
    obtain ⟨-, rfl⟩ := hs
    exact ⟨h.told, h.filed⟩

/-- Once every frame has been processed the map is what the venue told. -/
theorem Agrees.quiet (h : w.Agrees) (hq : w.Quiet) : w.positions = w.told := by
  obtain ⟨hframe, hchannel, htaken⟩ := hq
  have hpending : w.pending = [] := by
    simp only [pending, hframe, hchannel, htaken, Option.toList_none, List.append_nil]
  rw [← h.told, hpending]
  rfl

end PositionFeed

/-! ## What the adapter returns -/

/-- A conversion of a list that succeeds has converted each of its entries, in order. -/
theorem mapM_eq_ok {f : WirePosition → Converts ReportedPosition} {raw : List WirePosition}
    {out : List ReportedPosition} (h : raw.mapM f = some (.ok out)) :
    List.Forall₂ (fun p v => f p = some (.ok v)) raw out := by
  induction raw generalizing out with
  | nil =>
    cases h
    exact .nil
  | cons p raw ih =>
    rw [List.mapM_cons] at h
    obtain ⟨v, hv, h⟩ := Converts.bind_eq_ok.mp h
    obtain ⟨vs, hvs, h⟩ := Converts.bind_eq_ok.mp h
    obtain rfl : v :: vs = out := Except.ok.inj (Option.some.inj h)
    exact .cons hv (ih hvs)

open PositionFeed in
/-- In every run in which snapshots leave nothing out and nothing is dropped, once the frames
have been processed the adapter keeps exactly the positions open according to the latest
snapshot and the updates after it, and returns each of them. -/
theorem positions_are_the_venues {w : PositionFeed} {as : List FeedAction}
    (h : Run PositionFeed.Step PositionFeed.Heard start as w) (hq : w.Quiet) :
    w.positions = w.told ∧ ∀ (c : Context) raw, Ranges WirePosition.positionID raw w.positions →
      Ranges WirePosition.positionID raw w.told ∧ ∀ out, c.positions raw = some (.ok out) →
        List.Forall₂ (fun p v => c.toVenuePosition p = some (.ok v)) raw out := by
  have hagrees : w.Agrees := h.invariant start_agrees fun _ _ _ hi hok hs => hi.step hok hs
  have heq : w.positions = w.told := hagrees.quiet hq
  refine ⟨heq, fun c raw hraw => ⟨heq ▸ hraw, fun out hout => ?_⟩⟩
  -- every position of the map is open, so none is passed over
  have hall : raw.filter WirePosition.isOpen = raw := by
    rw [List.filter_eq_self]
    intro p hp
    exact (hagrees.filed _ p (heq ▸ (hraw.mem_iff p).mp hp)).2
  rw [Context.positions, hall] at hout
  exact mapM_eq_ok hout

/-! ## A close while the connection was down -/

/-- A long position in market 1. -/
def longOne : WirePosition := ⟨1, 7, positionStatusOpen, 1, "10", 100, 5, "0", 100, "0", 0⟩

/-- A connection whose snapshot lists one position, handled to its end. -/
def reported : List FeedAction :=
  [.connected, .snapshot [longOne], .broadcast, .took, .noted]

/-- The connection is lost, and the next one's snapshot lists none. -/
def reconnected : List FeedAction := [.disconnected, .connected, .snapshot []]

/-- A position that is reported. -/
theorem positions_reported : ∃ w as, Run PositionFeed.Step PositionFeed.Heard .start as w ∧
    w.Quiet ∧ w.positions = w.told ∧ w.positions 7 = some longOne := by
  have hstart : Run PositionFeed.Step PositionFeed.Heard .start [] .start := .nil
  have hsnap := (hstart.snoc (a := .connected) (by trivial) rfl).snoc (a := .snapshot [longOne])
    (by exact fun id hid => absurd rfl hid) rfl
  have hsent := hsnap.snoc (a := .broadcast)
    (by exact Nat.zero_lt_succ _) rfl
  have h := (hsent.snoc (a := .took) (by trivial) rfl).snoc (a := .noted) (by trivial) rfl
  exact ⟨_, _, h, ⟨rfl, rfl, rfl⟩, (positions_are_the_venues h ⟨rfl, rfl, rfl⟩).1, by decide⟩

/-- A position closed while the connection was down: the snapshot after it lists none, and the
adapter still has it. -/
theorem closed_while_down_stays : ∃ w, Run PositionFeed.Step Always .start
    (reported ++ reconnected) w ∧ w.Quiet ∧ w.told 7 = none ∧ w.positions 7 = some longOne := by
  have h : exec PositionFeed.next .start (reported ++ reconnected) =
      some ((exec PositionFeed.next .start (reported ++ reconnected)).get (by decide)) :=
    (Option.some_get _).symm
  exact ⟨_, Run.of_exec h fun _ _ _ => trivial, by decide, by decide, by decide⟩

end SuperAgent.Perpl
