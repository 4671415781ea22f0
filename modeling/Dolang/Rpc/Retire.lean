import Dolang.Rpc.Moves

/-!
# What trailers return

What an operation on the receiving end of a trailer does to its books: how many bytes it retires, and
how many of those that are retired it returns to the peer as credit. Nothing else changes the debt of
the trailer, unless its consumer goes.
-/

namespace Dolang.Rpc

/-- The credit for the trailer of message `id` that the receiver is about to return. -/
def sinkCredit (id : MsgId) : Sink → ℕ
  | .credit id' count => if id' = id then count else 0
  | _ => 0

namespace RecvShared

variable {s s' : RecvShared} {w : SessionWindow} {r : RecvShared × SessionWindow × List Sink}
  {len n : ℕ} {id : MsgId}

/-- `len` bytes are retired, and `n` of those that are retired are returned. -/
structure Returns (s : RecvShared) (w : SessionWindow) (len n : ℕ)
    (r : RecvShared × SessionWindow × List Sink) : Prop where
  id : r.1.id = s.id
  received : r.1.received = s.received
  autoRelease : r.1.autoRelease = s.autoRelease
  stage : r.1.stage = s.stage
  state : r.1.state = s.state
  retired : r.1.retired = s.retired + len
  pending : r.1.pending + n = s.pending + len
  owed : ∀ id, r.2.1.owed id = if id = s.id then w.owed id - n else w.owed id
  capacity : r.2.1.capacity = w.capacity
  credit : ∀ id, (r.2.2.map (sinkCredit id)).sum = if id = s.id then n else 0
  quiet : ∀ id, .discard id ∉ r.2.2

theorem returns_none (s : RecvShared) (w : SessionWindow) : s.Returns w 0 0 (s, w, []) where
  id := rfl
  received := rfl
  autoRelease := rfl
  stage := rfl
  state := rfl
  retired := rfl
  pending := rfl
  owed _ := by split_ifs <;> rfl
  capacity := rfl
  credit _ := by split_ifs <;> rfl
  quiet _ := List.not_mem_nil

theorem returns_flush (s : RecvShared) (w : SessionWindow) : ∃ n, s.Returns w 0 n (s.flush w) := by
  unfold RecvShared.flush
  split_ifs with hnone
  · exact ⟨0, returns_none s w⟩
  · refine ⟨min s.pending u32Max, rfl, rfl, rfl, rfl, rfl, rfl, ?_, fun id => ?_,
      SessionWindow.capacity_refund, fun id => ?_, fun id hmem => ?_⟩
    · dsimp only
      omega
    · refine SessionWindow.owed_refund.trans ?_
      split_ifs with hid
      · rw [hid]
      · rfl
    · simp only [List.map_cons, List.map_nil, List.sum_cons, List.sum_nil, sinkCredit, Nat.add_zero]
      split_ifs with h1 h2 h2
      · rfl
      · exact absurd h1.symm h2
      · exact absurd h2.symm h1
      · rfl
    · cases List.mem_singleton.mp hmem

/-- Retiring keeps the books, unless the trailer is not wanted any more. -/
theorem returns_retire (hs : s.state ≠ .discard) (w : SessionWindow) (len : ℕ) :
    ∃ n, s.Returns w len n (s.retire w len) := by
  unfold RecvShared.retire
  rw [if_neg hs]
  dsimp only
  split_ifs
  · exact ⟨0, rfl, rfl, rfl, rfl, rfl, rfl, rfl, fun _ => by split_ifs <;> rfl, rfl,
      fun _ => by split_ifs <;> rfl, fun _ => List.not_mem_nil⟩
  · obtain ⟨n, h⟩ := returns_flush
      { s with pending := s.pending + len, retired := s.retired + len } w
    exact ⟨n, h.id, h.received, h.autoRelease, h.stage, h.state, h.retired, h.pending, h.owed,
      h.capacity, h.credit, h.quiet⟩

end RecvShared

end Dolang.Rpc
