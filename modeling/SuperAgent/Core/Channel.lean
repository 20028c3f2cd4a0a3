import Mathlib.Data.List.Basic

/-!
# Buffered channels

A channel of values with room for so many, closed at most once. Sending to a
closed channel and closing it again panic, which is `none` here. What was sent
before the close is still received after it.
-/

namespace SuperAgent

/-- A channel, with what was sent and not received yet, oldest first. -/
structure Chan (α : Type*) where
  cap : Nat
  buf : List α := []
  closed : Bool := false

namespace Chan

variable {α : Type*} {c d : Chan α} {v : α}

/-- Close a channel. -/
def close (c : Chan α) : Option (Chan α) := if c.closed then none else some { c with closed := true }

/-- Put a value into the buffer. A sender waits for room first. -/
def send (c : Chan α) (v : α) : Option (Chan α) :=
  if c.closed then none else some { c with buf := c.buf ++ [v] }

/-- Put a value into the buffer, or drop it when there is no room. -/
def trySend (c : Chan α) (v : α) : Option (Chan α) :=
  if c.closed then none else if c.buf.length < c.cap then c.send v else some c

/-- Nothing is buffered and something may still be sent: a receiver waits. -/
def Idle (c : Chan α) : Prop := c.buf = [] ∧ c.closed = false

/-- Closing an open channel keeps what is buffered. -/
theorem close_eq_some (h : c.closed = false) : c.close = some { c with closed := true } := by
  simp only [close, h, Bool.false_eq_true, if_false]

theorem send_eq_some (h : c.closed = false) : c.send v = some { c with buf := c.buf ++ [v] } := by
  simp only [send, h, Bool.false_eq_true, if_false]

/-- The last value is sent and the channel closed after it. -/
theorem send_close_eq_some (h : c.closed = false) :
    (c.send v).bind close = some { c with buf := c.buf ++ [v], closed := true } := by
  rw [send_eq_some h, Option.bind_some]
  exact close_eq_some h

/-- What an offer leaves in an open channel. -/
theorem trySend_eq_some (h : c.closed = false) :
    ∃ d, c.trySend v = some d ∧ d.closed = false ∧ (d.buf = c.buf ++ [v] ∨ d = c) := by
  unfold trySend
  rw [h, if_neg Bool.false_ne_true]
  by_cases hroom : c.buf.length < c.cap
  · rw [if_pos hroom, send_eq_some h]
    exact ⟨_, rfl, h, .inl rfl⟩
  · rw [if_neg hroom]
    exact ⟨_, rfl, h, .inr rfl⟩

/-- What an idle channel is left with: it buffers something or is closed. -/
theorem not_idle_iff : ¬ c.Idle ↔ c.buf ≠ [] ∨ c.closed = true := by
  rw [Idle, not_and_or, Bool.not_eq_false]

end Chan

end SuperAgent
