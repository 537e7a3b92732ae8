import Mathlib.Data.List.Basic

/-! # A queue with acknowledgements

The items wait in a first-in first-out list until they are taken, and are then unacknowledged until they
are acknowledged by key. Every item is held from its insertion to its acknowledgement; a restart keeps
what is held and durable. -/

namespace Lib

structure AckQueue (α : Type) where
  held : List α := []
  pending : List α := []
  unacked : List α := []

namespace AckQueue
variable {α κ : Type} [DecidableEq κ]

def push (q : AckQueue α) (a : α) : AckQueue α := { q with held := q.held ++ [a], pending := q.pending ++ [a] }

def pop (q : AckQueue α) : Option α × AckQueue α :=
  match q.pending with
  | [] => (none, q)
  | a :: rest => (some a, { q with pending := rest, unacked := a :: q.unacked })

/-- Acknowledging a key that no unacknowledged item has changes nothing. -/
def ack (key : α → κ) (q : AckQueue α) (k : κ) : AckQueue α :=
  if k ∈ q.unacked.map key then
    { q with held := q.held.filter (key · ≠ k), unacked := q.unacked.filter (key · ≠ k) }
  else q

def restart (durable : α → Bool) (q : AckQueue α) : AckQueue α :=
  { held := q.held.filter durable, pending := q.held.filter durable }

variable {q : AckQueue α} {key : α → κ} {k : κ}

theorem ack_of_notMem (h : k ∉ q.unacked.map key) : q.ack key k = q := if_neg h

theorem ack_of_mem (h : k ∈ q.unacked.map key) : q.ack key k =
    { q with held := q.held.filter (key · ≠ k), unacked := q.unacked.filter (key · ≠ k) } := if_pos h

theorem map_unacked_ack (h : k ∈ q.unacked.map key) :
    (q.ack key k).unacked.map key = (q.unacked.map key).filter (· ≠ k) := by
  rw [ack_of_mem h, List.filter_map]
  rfl

end AckQueue
end Lib
