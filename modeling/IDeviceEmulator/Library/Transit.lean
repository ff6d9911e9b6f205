import Mathlib.Tactic.Common
import Mathlib.Data.List.Infix

variable {α : Type*}

/-- A stream holds the part of a message that was sent and has not been received. -/
structure InTransit (message : List α) (received sent : Nat) (stream : List α) : Prop where
  received_le : received ≤ sent
  sent_le : sent ≤ message.length
  stream_eq : stream = (message.take sent).drop received

namespace InTransit

variable {message stream : List α} {received sent : Nat}

theorem start (message : List α) : InTransit message 0 0 [] := by
  refine ⟨Nat.le_refl 0, Nat.zero_le _, ?_⟩
  simp

theorem length_stream (h : InTransit message received sent stream) : stream.length = sent - received := by
  have hle := h.sent_le
  rw [h.stream_eq, List.length_drop, List.length_take, Nat.min_eq_left hle]

theorem eq_nil_iff (h : InTransit message received sent stream) : stream = [] ↔ received = sent := by
  have hlength := h.length_stream
  have hle := h.received_le
  rw [← List.length_eq_zero_iff]
  omega

theorem isPrefix (h : InTransit message received sent stream) : stream <+: message.drop received := by
  rw [h.stream_eq]
  exact (List.take_prefix sent message).drop received

theorem push (h : InTransit message received sent stream) {n : Nat} (hn : sent + n ≤ message.length) :
    InTransit message received (sent + n) (stream ++ (message.drop sent).take n) := by
  have hle := h.received_le
  refine ⟨by omega, hn, ?_⟩
  rw [h.stream_eq, List.take_add, List.drop_append_of_le_length]
  rw [List.length_take]
  omega

theorem pull (h : InTransit message received sent stream) {n : Nat} (hn : n ≤ stream.length) :
    InTransit message (received + n) sent (stream.drop n) := by
  have hle := h.received_le
  rw [h.length_stream] at hn
  refine ⟨by omega, h.sent_le, ?_⟩
  rw [h.stream_eq, List.drop_drop]

theorem sent_of_received (h : InTransit message received sent stream) (hall : received = message.length) :
    sent = message.length ∧ stream = [] := by
  have hle := h.received_le
  have hsent := h.sent_le
  have heq : sent = message.length := by omega
  exact ⟨heq, h.eq_nil_iff.mpr (by omega)⟩

end InTransit
