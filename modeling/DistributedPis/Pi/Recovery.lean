import DistributedPis.Pi.Loss

/-! Recovery on the Pi. Whatever an entry has received, the command packet of the next message
opens a fresh message or closes the one that is open, so at most one message is lost before the
entry is in step again. -/
namespace DistributedPis
open Library

namespace Receiver
variable {fromId : UInt8} {m m₁ m₂ : Msg}

/-- What a whole message with data does to an entry in any state. -/
theorem run_message (h : Deliverable fromId m) (hm : m.payload ≠ []) (r : Receiver) :
    r.run m.pckts = {r with
      cur := .zero
      queue := if r.cur.hasCmd then r.queue else m.stored :: r.queue} := by
  rw [step_pckts h]
  by_cases hopen : r.cur.hasCmd = true
  · -- the command packet closes the message, and the data packets are dropped
    rw [if_pos hopen, if_pos hopen]
    exact run_rejects (dataPckts_plain h) rfl
  · rw [if_neg hopen, if_neg hopen]
    exact run_whole (dataPckts_plain h) h.size hm

/-- The second of two messages is queued, and the first one if none was open before it. -/
theorem run_two (h₁ : Deliverable fromId m₁) (h₂ : Deliverable fromId m₂) (hm₁ : m₁.payload ≠ [])
    (hm₂ : m₂.payload ≠ []) (r : Receiver) :
    (r.run (m₁.pckts ++ m₂.pckts)).queue =
      m₂.stored :: if r.cur.hasCmd then r.queue else m₁.stored :: r.queue := by
  rw [run_append, run_message h₁ hm₁, run_message h₂ hm₂]
  rfl

end Receiver

/-- After any packets at all, two whole messages of one sender come in, with packets of other
senders in between. The second message is pushed once and with its payload, and the first one
too unless a message was open. -/
theorem second_message_queued {fromId : UInt8} {m₁ m₂ : Msg} {ps qs : List Packet}
    (h₁ : Deliverable fromId m₁) (h₂ : Deliverable fromId m₂)
    (hm₁ : m₁.payload ≠ []) (hm₂ : m₂.payload ≠ [])
    (hfit₁ : 30*npckts m₁.payload.length < 2^32) (hfit₂ : 30*npckts m₂.payload.length < 2^32)
    (hqs : (qs.filter fun p => p.fd = fdOf fromId) = m₁.pckts ++ m₂.pckts) :
    ∃ ms s₁ s₂, Carries s₁ m₁.payload ∧ Carries s₂ m₂.payload ∧
      (FileTable.init.receive ps).Queued (fdOf fromId) ms ∧
      (((FileTable.init.receive ps).receive qs).Queued (fdOf fromId) (s₂::ms) ∨
        ((FileTable.init.receive ps).receive qs).Queued (fdOf fromId) (s₂::s₁::ms)) := by
  have hafter := receive_queued (fdOf fromId) (ps ++ qs)
  rw [FileTable.receive_append, List.filter_append, Receiver.run_append, hqs,
    Receiver.run_two h₁ h₂ hm₁ hm₂] at hafter
  refine ⟨_, m₁.stored, m₂.stored, stored_carries hfit₁, stored_carries hfit₂,
    receive_queued (fdOf fromId) ps, ?_⟩
  split at hafter
  · exact .inl hafter
  · exact .inr hafter

/-- A message of 31 bytes whose second data packet is lost, then two whole messages. -/
theorem second_message_queued_lossy : ∃ ms s₁ s₂, Carries s₁ [1] ∧ Carries s₂ [2,3] ∧
    (FileTable.init.receive withoutTail.got).Queued (fdOf 1) ms ∧
    (((FileTable.init.receive withoutTail.got).receive
        ((fromOne [1]).pckts ++ (fromOne [2,3]).pckts)).Queued (fdOf 1) (s₂::ms) ∨
      ((FileTable.init.receive withoutTail.got).receive
        ((fromOne [1]).pckts ++ (fromOne [2,3]).pckts)).Queued (fdOf 1) (s₂::s₁::ms)) := by
  have hd : ∀ m ∈ [[1],[2,3]].map fromOne, Deliverable 1 m := fromOne_deliverable (by decide)
  have h₁ : Deliverable 1 (fromOne [1]) := hd _ (by simp)
  have h₂ : Deliverable 1 (fromOne [2,3]) := hd _ (by simp)
  refine second_message_queued h₁ h₂ (by decide) (by decide) (by decide) (by decide)
    (List.filter_eq_self.mpr fun p hp => ?_)
  rcases List.mem_append.mp hp with hp | hp
  · simpa using (pckts_fd h₁ p hp).2
  · simpa using (pckts_fd h₂ p hp).2

end DistributedPis
