import Mathlib.Data.Nat.Notation

/-!
Channels that deliver in order.

A channel keeps what went in and what came out. What went in is what came out and what
is still in the queue.
-/

structure Fifo (α : Type*) where
  sent : List α
  received : List α
  queue : List α
  inOrder : sent = received ++ queue

namespace Fifo

variable {α : Type*}

def empty : Fifo α := ⟨[], [], [], rfl⟩

def push (c : Fifo α) (xs : List α) : Fifo α where
  sent := c.sent ++ xs
  received := c.received
  queue := c.queue ++ xs
  inOrder := by rw [c.inOrder, List.append_assoc]

def pop (c : Fifo α) (k : ℕ) : Fifo α where
  sent := c.sent
  received := c.received ++ c.queue.take k
  queue := c.queue.drop k
  inOrder := by rw [List.append_assoc, List.take_append_drop, c.inOrder]

@[simp] theorem push_sent (c : Fifo α) (xs : List α) : (c.push xs).sent = c.sent ++ xs := rfl
@[simp] theorem pop_received (c : Fifo α) (k : ℕ) :
    (c.pop k).received = c.received ++ c.queue.take k :=
  rfl

theorem received_prefix (c : Fifo α) : c.received <+: c.sent := ⟨c.queue, c.inOrder.symm⟩

theorem received_eq_sent {c : Fifo α} (h : c.queue = []) : c.received = c.sent := by
  rw [c.inOrder, h, List.append_nil]

end Fifo
