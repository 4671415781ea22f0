import Dolang.Rpc.Framing

/-!
# The payload quota

A message is charged to the sender's budget as a whole when it starts, and its bytes then pass from
the sender to the wire, to the receiver's debts, and back as an anonymous count. `quota` is what the
places along this way hold together. No step changes it, so it always is the quota that the ends have
agreed on (`quota_next`).

With this the receiver never finds its quota exceeded: the bytes that arrive are part of the sum. And
when nothing is left on the way, the sender has the whole quota again.
-/

namespace Dolang.Rpc

/-- The payload of a fragment is charged to its message, which stands at `p`. -/
def Phase.charges (p : Phase) (h : FragmentHeader) : Bool :=
  !h.kind.isCount && !h.flags.abort && (h.flags.first || p != .trailer)

/-- The phases of all messages after a fragment. -/
def Phase.moved (φ : MsgId → Phase) (f : Fragment) (id : MsgId) : Phase :=
  if f.header.id = id then (φ id).after f.header else φ id

/-- The payload bytes of the fragments of a wire, when the messages stand at `φ` at its end. -/
def payloadInFlight (φ : MsgId → Phase) : List Fragment → ℕ
  | [] => 0
  | f :: fs => (if (φ f.header.id).charges f.header then f.header.payloadLen else 0) +
      payloadInFlight (Phase.moved φ f) fs

theorem payloadInFlight_append (φ : MsgId → Phase) (fs gs : List Fragment) :
    payloadInFlight φ (fs ++ gs) =
      payloadInFlight φ fs + payloadInFlight (fun id => Phase.follow id (φ id) fs) gs := by
  induction fs generalizing φ with
  | nil => simp [payloadInFlight]
  | cons f fs ih =>
    rw [List.cons_append, payloadInFlight, payloadInFlight, ih]
    simp only [Phase.follow_cons, Phase.moved]
    omega

/-- The quota that `PayloadCredit`s return. -/
def creditCount : ControlSend → ℕ
  | .payloadCredit count => count
  | _ => 0

/-- The quota that the receiver is about to return. -/
def sinkCount : Sink → ℕ
  | .payloadCredit count => count
  | _ => 0

/-- The bytes that are charged to messages and not written yet. -/
def Sender.unsent (s : Sender) : ℕ :=
  (s.sends.map fun send => send.charged - send.offset).sum

namespace Link

/-- What the places on the way of the quota hold together. -/
def quota (l : Link) : ℕ :=
  l.sender.payloadBudget.available + l.sender.unsent + payloadInFlight l.reassembler.phase l.wire +
    l.reassembler.payloadCredit.outstanding + (l.out.map sinkCount).sum +
    (l.queue.map creditCount).sum + (l.back.map creditCount).sum

end Link

/-! ### The sender -/

namespace Sender

variable {kind : Kind} {used : List MsgId} {s s' : Sender} {send : ActiveSend}

/-- The quota that a sender has, free or charged. -/
def reserve (s : Sender) : ℕ :=
  s.payloadBudget.available + s.unsent

theorem unsent_perm {t : Sender} (h : s.sends.Perm t.sends) : s.unsent = t.unsent :=
  (h.map _).sum_eq

theorem unsent_cons (h : s.sends.Perm (send :: s'.sends)) :
    s.unsent = send.charged - send.offset + s'.unsent := by
  rw [unsent, (h.map _).sum_eq, List.map_cons, List.sum_cons]
  rfl

@[simp] theorem discardTrailer_unsent (s : Sender) (t : Option ℕ) :
    (s.discardTrailer t).unsent = s.unsent := by
  simp [unsent, sends]

theorem reserve_start {waiting : List ActiveSend} {budget : PayloadBudget}
    (h : Sound kind used { s with waiting := send :: waiting })
    (hc : s.tryCharge send = some budget) :
    Sender.reserve { s.start send budget with waiting } =
      Sender.reserve { s with waiting := send :: waiting } := by
  have hidle := h.idle send List.mem_cons_self
  obtain ⟨-, hb⟩ := tryCharge_eq_some hc
  have hsends : (Sender.sends { s.start send budget with waiting }).Perm
      ({ send with charged := send.payload.length } :: s.sends) := by
    simp only [sends, Sender.start, List.append_assoc]
    exact List.perm_middle
  have hu := unsent_cons hsends
  simp only [hidle.offset] at hu
  show budget.available + _ = s.payloadBudget.available + s.unsent
  rw [hu]
  omega

/-- Starting waiting messages keeps the quota of the sender. -/
theorem Sound.reserve_promoteWaiting (h : s.Sound kind used) : s.promoteWaiting.reserve = s.reserve := by
  refine (promoteWaiting_invariant (I := fun t => t.Sound kind used ∧ t.reserve = s.reserve) ?_
    ⟨h, rfl⟩).2
  rintro t send waiting budget ⟨ht, hr⟩ hc
  exact ⟨ht.start, (reserve_start ht hc).trans hr⟩

theorem Sound.reserve_release (h : s.Sound kind used) : (s.release send).reserve = s.reserve := by
  unfold Sender.release
  split_ifs
  · exact (h.congr rfl rfl rfl rfl rfl : Sound kind used { s with
      activeFragmented := s.activeFragmented - 1 }).reserve_promoteWaiting
  · rfl

theorem reserve_admitMessage {id : MsgId} {payload : List UInt8}
    {handles : ℕ} {trailer : Option ℕ}
    (hq : Sound kind (id :: used) { s with
      waiting := s.waiting ++ [s.newSend kind id payload handles trailer] }) :
    (s.admitMessage kind id payload handles trailer).reserve = s.reserve := by
  refine (admitMessage_invariant (s := s)
    (I := fun t => t.Sound kind (id :: used) ∧ t.reserve = s.reserve) kind id payload handles trailer
    ?_ ⟨hq, rfl⟩).2
  rintro t send waiting budget ⟨ht, hr⟩ hc
  exact ⟨ht.start, (reserve_start ht hc).trans hr⟩

/-- Cancelling a message returns what of it was not written. -/
theorem Sound.reserve_cancelled {front back : List ActiveSend} (h : s.Sound kind used)
    (hq : s.active = front ++ send :: back) :
    (s.cancelled send (front ++ back)).reserve = s.reserve := by
  have hs : Sound kind used { s with active := front ++ back } := by
    refine h.sublist ?_ (List.Sublist.refl _)
    rw [hq]
    exact (List.Sublist.refl _).append (List.sublist_cons_self ..)
  have hperm : s.sends.Perm (send :: (Sender.sends { s with active := front ++ back })) := by
    rw [sends, hq, sends, ← List.cons_append]
    exact List.perm_middle.append_right _
  have hu := unsent_cons hperm
  have hd := ((hs.discardTrailer send.trailer).congr rfl rfl rfl rfl rfl : Sound kind used
    { Sender.discardTrailer { s with active := front ++ back } send.trailer with
      payloadBudget := (Sender.discardTrailer { s with active := front ++ back }
        send.trailer).payloadBudget.credit (send.charged - send.offset)
      activeFragmented := (Sender.discardTrailer { s with active := front ++ back }
        send.trailer).activeFragmented - if send.multiFragment then 1 else 0 })
  refine hd.reserve_promoteWaiting.trans ?_
  show PayloadBudget.available (PayloadBudget.credit _ _) + Sender.unsent
    (Sender.discardTrailer { s with active := front ++ back } send.trailer) = _
  rw [PayloadBudget.credit_available, discardTrailer_budget, discardTrailer_unsent, reserve, hu]
  show s.payloadBudget.available + _ + _ = _
  omega

/-- Advancing a message takes the bytes that it writes from the quota of the sender. -/
theorem Sound.reserve_drives {front back : List ActiveSend} {head : ℕ} {a : Advanced}
    (h : s.Sound kind used) (hl : s.lease = none) (hq : s.active = front ++ send :: back)
    (ha : Drives { s with active := back ++ front } send head a) :
    a.sender.reserve + (a.sent.map fun f => f.header.payloadLen).sum = s.reserve := by
  have hs := sends_of_active hq
  have hsend : send.Sound := h.sound send (hs.mem_iff.2 List.mem_cons_self)
  have hu := unsent_cons hs
  have hgone : Sound kind used { s with active := back ++ front } :=
    h.remove hs (List.Perm.refl _) rfl rfl h.leased h.granted
  have hres : s.reserve = send.charged - send.offset +
      Sender.reserve { s with active := back ++ front } := by
    rw [reserve, hu, reserve]
    show _ = _ + (s.payloadBudget.available + _)
    omega
  have h1 := hsend.charged
  have h2 := hsend.offset_le
  cases ha with
  | payload hled =>
    have hlen : ((Sender.sendPayload { s with active := back ++ front } send head).sent.map
        fun f => f.header.payloadLen).sum = s.payloadEnd send - send.offset := rfl
    have hend : send.offset ≤ s.payloadEnd send ∧ s.payloadEnd send ≤ send.payload.length := by
      unfold payloadEnd
      omega
    rw [hlen, hres]
    unfold sendPayload
    split_ifs with hd
    · have hfull : s.payloadEnd send = send.payload.length := by
        have : (s.payloadEnd send == send.payload.length) = true := by
          simp only [payloadDone, Bool.and_eq_true] at hd
          exact hd.1.1
        exact beq_iff_eq.1 this
      show (Sender.release { s with active := back ++ front } send).reserve + _ = _
      rw [hgone.reserve_release]
      omega
    · have hperm : (Sender.sends { s with
          active := back ++ front ++ [s.afterPayload send] }).Perm
          (s.afterPayload send :: Sender.sends { s with active := back ++ front }) := by
        simp only [sends, hl, Option.map_none, Option.toList_none, List.append_nil]
        exact List.perm_append_singleton ..
      have hu' := unsent_cons hperm
      have hoff : (s.afterPayload send).charged - (s.afterPayload send).offset =
          send.charged - s.payloadEnd send := rfl
      rw [hoff] at hu'
      show s.payloadBudget.available + Sender.unsent { s with
          active := back ++ front ++ [s.afterPayload send] } + _ = _ +
        (s.payloadBudget.available + Sender.unsent { s with active := back ++ front })
      rw [hu']
      omega
  | commit hled ht =>
    have hend := (hsend.ended hled).1
    show (Sender.release { s with active := back ++ front } send).reserve + 0 = _
    rw [hgone.reserve_release, hres]
    omega
  | abort hled ht hp hst =>
    have hend := (hsend.ended hled).1
    have hc : (Sender.release { s with
        active := back ++ front, control := s.control ++ [.abort send.kind send.id] } send).reserve =
        _ := (hgone.control hl (s.control ++ [.abort send.kind send.id])).reserve_release
    show (Sender.release { s with
      active := back ++ front, control := s.control ++ [.abort send.kind send.id] } send).reserve +
        0 = _
    rw [hc, hres]
    show Sender.reserve { s with active := back ++ front } + 0 = _
    omega
  | @grant i p hled ht hp hst =>
    show s.payloadBudget.available + Sender.unsent (Sender.grantLease
      { s with active := back ++ front } send i).sender + 0 = s.payloadBudget.available + s.unsent
    rw [unsent_perm (t := s)]
    · omega
    · refine List.Perm.trans ?_ hs.symm
      simp only [sends, grantLease, modifyShared, hl, Option.map_none, Option.map_some,
        Option.toList_none, Option.toList_some, List.append_nil]
      exact List.perm_append_singleton ..

theorem reserve_turn {a : Advanced} (ha : s.turn = some a) : a.sender.reserve = s.reserve := by
  obtain ⟨lease, i, p, hl, -, -, -, yielded, ready, rfl, -, -⟩ := turn_cases ha
  simp [reserve, unsent, sends, hl]

theorem Sound.reserve_completeLease {a : Advanced} (h : s.Sound kind used)
    (ha : s.completeLease = some a) : a.sender.reserve = s.reserve := by
  obtain ⟨lease, i, hl, ht, hcase⟩ := completeLease_cases ha
  obtain ⟨hc, hst, hled, -⟩ := h.leased lease hl
  have hs : s.sends.Perm (lease.send ::
      Sender.sends { s.modifyShared i SendShared.complete with lease := none }) := by
    simp only [sends, hl, modifyShared, Option.map_none, Option.toList_none, List.append_nil]
    exact List.perm_append_singleton ..
  have hsend : lease.send.Sound := h.sound _ (hs.mem_iff.2 List.mem_cons_self)
  have h1 := hsend.charged
  have h2 := (hsend.ended hled).1
  have hu := unsent_cons hs
  have hret : Sender.reserve { s.modifyShared i SendShared.complete with lease := none } =
      s.reserve := by
    rw [reserve, reserve, hu]
    show s.payloadBudget.available + _ = _
    omega
  obtain ⟨hr, rfl⟩ | ⟨hr, rfl⟩ | ⟨hr, rfl⟩ := hcase
  · show s.payloadBudget.available + Sender.unsent _ = s.payloadBudget.available + s.unsent
    rw [unsent_perm (t := s)]
    refine List.Perm.trans ?_ hs.symm
    simp only [sends, modifyShared, Option.map_none, Option.toList_none, List.append_nil]
    exact List.perm_append_singleton ..
  · exact (h.returned hl hr).reserve_release.trans hret
  · exact ((h.returned hl hr).control rfl _).reserve_release.trans hret

/-- No message is charged differently when a trailer is not wanted any more. -/
theorem reserve_discardActiveTrailer (s : Sender) (id : MsgId) :
    (s.discardActiveTrailer id).reserve = s.reserve := by
  unfold discardActiveTrailer
  split
  · split_ifs
    · simp only [reserve, unsent, sends, List.map_append, discardTrailer_lease,
        discardTrailer_budget]
      congr 3
      apply List.ext_getElem?
      intro j
      rw [List.getElem?_map, List.getElem?_map, List.getElem?_modify]
      cases s.active[j]? with
      | none => rfl
      | some x =>
        show some ((fun send : ActiveSend => send.charged - send.offset) (if _ then _ else x)) = _
        split_ifs <;> rfl
    · rfl
  · rfl

end Sender

/-! ### The wire -/

/-- A control item carries no payload. -/
theorem payloadInFlight_control (φ : MsgId → Phase) (item : ControlSend) :
    payloadInFlight φ [item.fragment] = 0 := by
  cases item <;> simp [payloadInFlight, ControlSend.fragment, ControlSend.bare, ControlSend.counted,
    Phase.charges, Kind.isCount]

/-- Trailer data is no payload. -/
theorem payloadInFlight_trailer {φ : MsgId → Phase} {shared : SendShared}
    (h : φ shared.id = .trailer) (bs : List (List UInt8)) :
    payloadInFlight φ (bs.map (Sender.trailerFragment shared)) = 0 := by
  induction bs with
  | nil => rfl
  | cons b bs ih =>
    have hm : Phase.moved φ (Sender.trailerFragment shared b) = φ := by
      funext id
      unfold Phase.moved
      split_ifs
      · simp [Phase.after, Sender.trailerFragment]
      · rfl
    rw [List.map_cons, payloadInFlight, hm, ih]
    simp [Sender.trailerFragment, Phase.charges, h]

namespace Link

variable {l l' : Link} {send : ActiveSend}

/-- The receiver will have a message at the phase that it has at the sender. -/
theorem Framed.view_of_mem (h : l.Framed) (hm : send ∈ l.sender.sends) :
    l.view send.id = send.phase := by
  obtain ⟨x, hx, hid, hp⟩ | ⟨hn, -⟩ := h.stands send.id
  · have hd := h.sound.distinct
    rw [Sender.queued, List.map_append] at hd
    have : x = send := List.inj_on_of_nodup_map (List.Nodup.of_append_left hd) hx hm hid
    rw [hp, this]
  · exact absurd rfl (hn send hm)

/-- The phases when the wire has arrived. -/
def arrived (l : Link) (id : MsgId) : Phase :=
  Phase.follow id (l.reassembler.phase id) l.wire

theorem arrived_eq_view (hc : l.sender.control = []) (id : MsgId) : l.arrived id = l.view id := by
  simp [arrived, view, pipeline, hc]

/-- The quota after the sender has moved. -/
theorem quota_sent {a : Sender.Advanced}
    (hr : a.sender.reserve + payloadInFlight l.arrived a.sent = l.sender.reserve) :
    (l.sent a).quota = l.quota := by
  have happ := payloadInFlight_append l.reassembler.phase l.wire a.sent
  simp only [Sender.reserve] at hr
  simp only [quota, sent, happ]
  change _ + payloadInFlight l.arrived a.sent = _ at hr
  show _ + (_ + payloadInFlight l.arrived a.sent) + _ + _ + _ + _ = _
  omega

theorem Framed.quota_advance (h : l.Framed) {head : ℕ} {a : Sender.Advanced}
    (ha : l.sender.advance head = some a) : (l.sent a).quota = l.quota := by
  obtain ⟨hl, ⟨item, items, hc, rfl⟩ | ⟨hc, send, front, back, hq, hd⟩⟩ :=
    Sender.advance_cases h.sound ha
  · apply quota_sent
    rw [payloadInFlight_control]
    rfl
  · apply quota_sent
    rw [← h.sound.reserve_drives hl hq hd]
    congr 1
    have hmem : send ∈ l.sender.sends := (Sender.sends_of_active hq).mem_iff.2 List.mem_cons_self
    have hk := h.sound.kinds send (List.mem_append_left _ hmem)
    have hv : l.arrived send.id = send.phase := (arrived_eq_view hc _).trans (h.view_of_mem hmem)
    -- What is written of a payload is charged at the other end, as its message is not in its trailer.
    cases hd with
    | payload hled =>
      have hch : (l.arrived send.id).charges (Sender.payloadFragment
          { l.sender with active := back ++ front } send head).header = true := by
        rw [hv]
        simp only [Phase.charges, Sender.payloadFragment, ActiveSend.phase, hk, h.isCount, hled]
        cases send.started <;> rfl
      have hid : (Sender.payloadFragment { l.sender with active := back ++ front } send
          head).header.id = send.id := rfl
      simp only [Sender.sendPayload, payloadInFlight, hid, hch, if_true, List.map_cons, List.map_nil,
        List.sum_cons, List.sum_nil]
    | commit hled ht => simp [Sender.commit, payloadInFlight, ControlSend.bare]
    | abort hled ht hp hst => rfl
    | grant hled ht hp hst => rfl

/-- The producer of the message that has the lease. -/
theorem Framed.leased_id (h : l.Framed) {lease : Lease} {i : ℕ} {p : Producer}
    (hl : l.sender.lease = some lease) (ht : lease.send.trailer = some i)
    (hp : l.sender.producers[i]? = some p) : p.shared.id = lease.send.id := by
  have hmem : lease.send ∈ l.sender.queued := by
    simp [Sender.queued, Sender.sends, hl]
  have hs := h.sound.streams _ hmem i ht
  rw [List.getElem?_map, hp] at hs
  exact (Prod.mk.inj (Option.some.inj hs)).2

/-- The message that has the lease is in its trailer. -/
theorem Framed.leased_phase (h : l.Framed) {lease : Lease} (hl : l.sender.lease = some lease) :
    l.arrived lease.send.id = .trailer := by
  obtain ⟨hc, -, hled, -⟩ := h.sound.leased lease hl
  have hmem : lease.send ∈ l.sender.sends := by simp [Sender.sends, hl]
  rw [arrived_eq_view hc, h.view_of_mem hmem]
  exact Sender.phase_of_ledger (h.sound.sound _ hmem) hled

theorem Framed.quota_turn (h : l.Framed) {a : Sender.Advanced} (ha : l.sender.turn = some a) :
    (l.sent a).quota = l.quota := by
  obtain ⟨lease, i, p, hl, -, ht, hp, yielded, ready, rfl, -⟩ := Sender.turn_cases ha
  apply quota_sent
  have hid : (p.shared.waitFragment lease.yielded).1.id = p.shared.id :=
    (Prod.mk.inj (Sender.key_waitFragment p lease.yielded)).2
  rw [payloadInFlight_trailer, Sender.reserve_turn ha, Nat.add_zero]
  rw [hid, h.leased_id hl ht hp]
  exact h.leased_phase hl

theorem Framed.quota_completeLease (h : l.Framed) {a : Sender.Advanced}
    (ha : l.sender.completeLease = some a) : (l.sent a).quota = l.quota := by
  apply quota_sent
  rw [h.sound.reserve_completeLease ha]
  obtain ⟨lease, i, hl, ht, ⟨-, rfl⟩ | ⟨-, rfl⟩ | ⟨-, rfl⟩⟩ := Sender.completeLease_cases ha
  · rfl
  · simp [Sender.commit, payloadInFlight, ControlSend.bare]
  · rfl

/-- A write of a producer does not touch the quota. -/
theorem Framed.quota_write (h : l.Framed) {i : ℕ} {p : Producer} {w : SendShared.Write}
    {buf : List UInt8} (hp : l.sender.producers[i]? = some p)
    (hw : SendShared.Writes p.shared l.sender.window buf w) : (l.write i p buf w).quota = l.quota := by
  obtain ⟨-, hid, -, hs⟩ := hw.spec
  have happ := payloadInFlight_append l.reassembler.phase l.wire
    (w.sent.map (Sender.trailerFragment w.shared))
  have h0 : payloadInFlight l.arrived (w.sent.map (Sender.trailerFragment w.shared)) = 0 := by
    by_cases hn : w.sent = []
    · rw [hn]
      rfl
    · obtain ⟨lease, hl, ht, -⟩ := h.sound.granted i p hp (hs hn)
      apply payloadInFlight_trailer
      rw [hid, h.leased_id hl ht hp]
      exact h.leased_phase hl
  simp only [quota, write, happ]
  show l.sender.payloadBudget.available + l.sender.unsent +
    (_ + payloadInFlight l.arrived (w.sent.map (Sender.trailerFragment w.shared))) + _ + _ + _ + _ = _
  rw [h0]
  rfl

end Link

/-! ### The receiver -/

theorem sinkCount_flush (s : RecvShared) (w : SessionWindow) :
    ((s.flush w).2.2.map sinkCount).sum = 0 := by
  unfold RecvShared.flush
  split_ifs <;> simp [sinkCount]

theorem sinkCount_retire (s : RecvShared) (w : SessionWindow) (n : ℕ) :
    ((s.retire w n).2.2.map sinkCount).sum = 0 := by
  unfold RecvShared.retire
  split_ifs
  · rfl
  · simp only
    split_ifs
    · rfl
    · exact sinkCount_flush ..

theorem sinkCount_retireAndEmit (s : RecvShared) (w : SessionWindow) (n : ℕ) :
    ((s.retireAndEmit w n).2.2.map sinkCount).sum = 0 := by
  unfold RecvShared.retireAndEmit
  split_ifs
  · exact sinkCount_retire ..
  · rfl

theorem sinkCount_release (s : RecvShared) (w : SessionWindow) (n : ℕ) :
    ((s.release w n).2.2.map sinkCount).sum = 0 := by
  unfold RecvShared.release
  split_ifs
  · rfl
  · exact sinkCount_retire ..

theorem sinkCount_discard (s : RecvShared) (w : SessionWindow) :
    ((s.discard w).2.2.map sinkCount).sum = 0 := by
  unfold RecvShared.discard
  by_cases hd : s.state = .discard
  · rw [if_pos hd]
    rfl
  · rw [if_neg hd]
    show ((if s.state = .eof then [] else [Sink.discard s.id]).map sinkCount).sum = 0
    split_ifs <;> rfl

theorem sinkCount_pollRead (s : RecvShared) (w : SessionWindow) (n : ℕ) (bytes : List UInt8) :
    ((s.pollRead w n bytes).out.map sinkCount).sum = 0 := by
  unfold RecvShared.pollRead
  by_cases hs : s.stage ≠ []
  · rw [if_pos hs]
    rfl
  · rw [if_neg hs]
    cases s.state with
    | idle => exact sinkCount_flush ..
    | fragment => exact sinkCount_flush ..
    | reading | unclaimed => simp only; split_ifs <;> rfl
    | demand | draining | fragmentDemand | eof | discard | failed => rfl

/-- Releasing a charge moves the debt of its message into the count that is returned. -/
theorem outstanding_releaseCharge {w : SessionWindow} (id : MsgId) (h : w.outstanding ≤ u32Max) :
    (releaseCharge w id).1.outstanding + ((releaseCharge w id).2.map sinkCount).sum =
      w.outstanding := by
  have hs := SessionWindow.outstanding_settle w id
  have hle : w.owed id ≤ w.outstanding := SessionWindow.owed_le_outstanding
  show (w.settle id).1.outstanding +
    ((if 0 < min (w.settle id).2 u32Max then [Sink.payloadCredit (min (w.settle id).2 u32Max)]
      else []).map sinkCount).sum = _
  rw [SessionWindow.settle_snd]
  split_ifs
  · show _ + (min (w.owed id) u32Max + 0) = _
    omega
  · show _ + 0 = _
    omega

namespace Reassembler

variable {r : Reassembler} {f : Fragment} {a : Accepted}

theorem payloadCredit_advanceEntry (r : Reassembler) (h : FragmentHeader) (e : Incomplete) :
    (advanceEntry r h e).reassembler.payloadCredit = r.payloadCredit ∧
      (advanceEntry r h e).out = [] := by
  unfold advanceEntry
  split_ifs <;> exact ⟨rfl, rfl⟩

/-- What an accepted fragment does to the debts: its payload is charged, or a debt is returned. -/
theorem outstanding_accept (h : r.accept f = .ok a) (hb : r.payloadCredit.outstanding ≤ u32Max) :
    a.reassembler.payloadCredit.outstanding + (a.out.map sinkCount).sum =
      r.payloadCredit.outstanding +
        if (r.phase f.header.id).charges f.header then f.header.payloadLen else 0 := by
  obtain ⟨hk, n, -, rfl⟩ | ⟨hk, h⟩ := accept_cases h
  · simp [Phase.charges, hk]
  cases h with
  | abort hab hl hk' =>
    simp only [Phase.charges, hab, Bool.not_true, Bool.and_false, Bool.false_and, Bool.false_eq_true,
      if_false, Nat.add_zero]
    exact outstanding_releaseCharge f.header.id hb
  | @commit entry hab hf hlast ht hl hk' hp h0 =>
    rw [h0, ite_self]
    obtain ⟨-, he⟩ | ⟨i, s, -, -, he⟩ := commitEntry_cases r f.header entry
    · rw [he]
      rfl
    · rw [he]
      show r.payloadCredit.outstanding + ((RecvShared.retire _ _ 0).2.2.map sinkCount).sum = _
      rw [sinkCount_retire]
  | whole hab hf hlast ht hn hsize hw =>
    have hch : (r.phase f.header.id).charges f.header = true := by
      simp [Phase.charges, hk, hab, hf]
    rw [if_pos hch]
    exact SessionWindow.outstanding_acceptBytes hw
  | trailerData hab hf hlast ht hl hk' hp hsize ha =>
    have hch : (r.phase f.header.id).charges f.header = false := by
      simp [Phase.charges, hf, phase_of_lookup hl, hp]
    rw [hch]
    obtain ⟨-, rfl⟩ | ⟨i, s, s', w, -, -, -, rfl⟩ := acceptTrailer_cases ha
    · rfl
    · rfl
  | opened hab hf hlast hn hroom hsize hw =>
    have hch : (r.phase f.header.id).charges f.header = true := by
      simp [Phase.charges, hk, hab, hf]
    obtain ⟨hc, ho⟩ := payloadCredit_advanceEntry
      { r with payloadPhase := r.payloadPhase + 1, payloadCredit := _ } f.header
      (extendEntry { kind := f.header.kind } f)
    rw [if_pos hch, hc, ho]
    exact SessionWindow.outstanding_acceptBytes hw
  | @continued entry w hab hf hlt hl hk' hp hb hsize hw =>
    have hch : (r.phase f.header.id).charges f.header = true := by
      simp [Phase.charges, hk, hab, phase_of_lookup hl, hp]
    obtain ⟨hc, ho⟩ := payloadCredit_advanceEntry { r with payloadCredit := w } f.header
      (extendEntry entry f)
    rw [if_pos hch, hc, ho]
    exact SessionWindow.outstanding_acceptBytes hw

/-- What an accepted fragment does to the debt of a message. -/
theorem owed_accept (h : r.accept f = .ok a) {id : MsgId} (hne : id ≠ f.header.id) :
    a.reassembler.payloadCredit.owed id = r.payloadCredit.owed id := by
  obtain ⟨hk, n, -, rfl⟩ | ⟨hk, h⟩ := accept_cases h
  · rfl
  cases h with
  | abort hab hl hk' => exact SessionWindow.owed_settle.trans (if_neg hne)
  | @commit entry hab hf hlast ht hl hk' hp h0 =>
    obtain ⟨-, he⟩ | ⟨i, s, -, -, he⟩ := commitEntry_cases r f.header entry <;> rw [he]
  | whole hab hf hlast ht hn hsize hw =>
    exact (SessionWindow.owed_acceptBytes hw).trans (if_neg hne)
  | trailerData hab hf hlast ht hl hk' hp hsize ha =>
    obtain ⟨-, rfl⟩ | ⟨i, s, s', w, -, -, -, rfl⟩ := acceptTrailer_cases ha
    · rfl
    · rfl
  | opened hab hf hlast hn hroom hsize hw =>
    rw [(payloadCredit_advanceEntry ..).1]
    exact (SessionWindow.owed_acceptBytes hw).trans (if_neg hne)
  | continued hab hf hlt hl hk' hp hb hsize hw =>
    rw [(payloadCredit_advanceEntry ..).1]
    exact (SessionWindow.owed_acceptBytes hw).trans (if_neg hne)

theorem capacity_accept (h : r.accept f = .ok a) :
    a.reassembler.payloadCredit.capacity = r.payloadCredit.capacity := by
  obtain ⟨hk, n, -, rfl⟩ | ⟨hk, h⟩ := accept_cases h
  · rfl
  cases h with
  | abort hab hl hk' => exact SessionWindow.capacity_settle ..
  | @commit entry hab hf hlast ht hl hk' hp h0 =>
    obtain ⟨-, he⟩ | ⟨i, s, -, -, he⟩ := commitEntry_cases r f.header entry <;> rw [he]
  | whole hab hf hlast ht hn hsize hw => exact SessionWindow.capacity_acceptBytes hw
  | trailerData hab hf hlast ht hl hk' hp hsize ha =>
    obtain ⟨-, rfl⟩ | ⟨i, s, s', w, -, -, -, rfl⟩ := acceptTrailer_cases ha
    · rfl
    · rfl
  | opened hab hf hlast hn hroom hsize hw =>
    rw [(payloadCredit_advanceEntry ..).1]
    exact SessionWindow.capacity_acceptBytes hw
  | continued hab hf hlt hl hk' hp hb hsize hw =>
    rw [(payloadCredit_advanceEntry ..).1]
    exact SessionWindow.capacity_acceptBytes hw

/-- A message with a debt is arriving, or its charge is handed out. -/
theorem owner_accepts {held : List MsgId} (h : Accepts r f a)
    (h0 : r.payloadCredit.owed f.header.id ≠ 0 → r.phase f.header.id = .payload ∨ f.header.id ∈ held)
    (hne : a.reassembler.payloadCredit.owed f.header.id ≠ 0) :
    a.reassembler.phase f.header.id = .payload ∨ f.header.id ∈ Link.chargeOf a.event ++ held := by
  have hdeliver : ∀ m : Message, m.id = f.header.id →
      f.header.id ∈ Link.chargeOf (deliver f.header m) ++ held := by
    intro m hm
    unfold deliver
    split_ifs <;> simp [Link.chargeOf, hm]
  have hadvance : ∀ (r' : Reassembler) (e : Incomplete), e.trailerPhase = false →
      (advanceEntry r' f.header e).reassembler.phase f.header.id = .payload ∨
        f.header.id ∈ Link.chargeOf (advanceEntry r' f.header e).event ++ held := by
    intro r' e he
    unfold advanceEntry
    split_ifs
    · exact .inr (hdeliver _ rfl)
    · exact .inr (hdeliver _ rfl)
    · refine .inl ((phase_of_insert (r := r') rfl _).trans ?_)
      simp [he]
  cases h with
  | abort hab hl hk' =>
    exact absurd (SessionWindow.owed_settle.trans (if_pos rfl)) hne
  | @commit entry hab hf hlast ht hl hk' hp h0' =>
    have he : (r.commitEntry f.header entry).reassembler.payloadCredit = r.payloadCredit := by
      obtain ⟨-, he⟩ | ⟨i, s, -, -, he⟩ := commitEntry_cases r f.header entry <;> rw [he]
    rw [he] at hne
    obtain hph | hm := h0 hne
    · rw [phase_of_lookup hl, hp] at hph
      exact nomatch hph
    · exact .inr (List.mem_append_right _ hm)
  | whole hab hf hlast ht hn hsize hw => exact .inr (hdeliver _ rfl)
  | trailerData hab hf hlast ht hl hk' hp hsize ha =>
    have he : a.reassembler.payloadCredit = r.payloadCredit := by
      obtain ⟨-, rfl⟩ | ⟨i, s, s', w, -, -, -, rfl⟩ := acceptTrailer_cases ha <;> rfl
    rw [he] at hne
    obtain hph | hm := h0 hne
    · rw [phase_of_lookup hl, hp] at hph
      exact nomatch hph
    · exact .inr (List.mem_append_right _ hm)
  | opened hab hf hlast hn hroom hsize hw => exact hadvance _ _ rfl
  | @continued entry w hab hf hlt hl hk' hp hb hsize hw => exact hadvance _ _ hp

end Reassembler

/-! ### Runs -/

/-- Adding to a queued `PayloadCredit` adds to the sum, unless the count saturates. -/
theorem creditCount_merge {count : ℕ} {items items' : List ControlSend}
    (h : Sender.mergePayloadCredit count items = some items')
    (hb : (items.map creditCount).sum + count ≤ u32Max) :
    (items'.map creditCount).sum = (items.map creditCount).sum + count := by
  induction items generalizing items' with
  | nil => simp [Sender.mergePayloadCredit] at h
  | cons item items ih =>
    cases item with
    | payloadCredit n =>
      obtain rfl := Option.some.inj h
      simp only [List.map_cons, List.sum_cons, creditCount] at hb ⊢
      omega
    | empty _ _ | abort _ _ | release _ _ | credit _ _ =>
      obtain ⟨rest, hr, rfl⟩ := Option.map_eq_some_iff.1 h
      simp only [List.map_cons, List.sum_cons, creditCount, Nat.zero_add] at hb ⊢
      exact ih hr hb

theorem creditCount_admitSink {queue : List ControlSend} {sink : Sink}
    (hb : (queue.map creditCount).sum + sinkCount sink ≤ u32Max) :
    ((Link.admitSink queue sink).map creditCount).sum =
      (queue.map creditCount).sum + sinkCount sink := by
  cases sink with
  | credit id count => simp [Link.admitSink, creditCount, sinkCount]
  | discard id => simp [Link.admitSink, creditCount, sinkCount]
  | payloadCredit count =>
    simp only [Link.admitSink]
    cases hm : Sender.mergePayloadCredit count queue with
    | none => simp [creditCount, sinkCount]
    | some items => exact creditCount_merge hm hb

namespace Link

variable {l l' : Link} {Q : ℕ}

/-- The quota is conserved, and what the receiver holds of it has an owner. -/
structure Conserved (Q : ℕ) (l : Link) : Prop where
  framed : l.Framed
  quota_eq : l.quota = Q
  capacity : l.reassembler.payloadCredit.capacity = Q
  owner : ∀ id, l.reassembler.payloadCredit.owed id ≠ 0 →
    l.reassembler.phase id = .payload ∨ id ∈ l.held

/-- The receiver and the quota stay as they are. -/
theorem Conserved.sender (h : l.Conserved Q) (hn : l'.Framed) (hq : l'.quota = l.quota)
    (hr : l'.reassembler = l.reassembler) (hh : l'.held = l.held) : l'.Conserved Q where
  framed := hn
  quota_eq := hq.trans h.quota_eq
  capacity := hr ▸ h.capacity
  owner := hr ▸ hh ▸ h.owner

/-- What the receiver does with a trailer does not concern the quota. -/
theorem Conserved.trailer (h : l.Conserved Q) (hn : l'.Framed) (hs : l'.sender = l.sender)
    (hw : l'.wire = l.wire) (hi : l'.reassembler.incomplete = l.reassembler.incomplete)
    (hp : l'.reassembler.payloadCredit = l.reassembler.payloadCredit) (hh : l'.held = l.held)
    (ho : (l'.out.map sinkCount).sum = (l.out.map sinkCount).sum) (hq : l'.queue = l.queue)
    (hb : l'.back = l.back) : l'.Conserved Q := by
  have hphase : l'.reassembler.phase = l.reassembler.phase := by
    funext id
    exact Reassembler.phase_of_eq hi id
  refine ⟨hn, ?_, hp ▸ h.capacity, ?_⟩
  · rw [← h.quota_eq]
    simp only [quota, hs, hw, hphase, hp, ho, hq, hb]
  · rw [hphase, hp, hh]
    exact h.owner

theorem sum_out (l : Link) (i : ℕ) {r : RecvShared × SessionWindow × List Sink}
    (h : (r.2.2.map sinkCount).sum = 0) :
    ((l.setTrailer i r).out.map sinkCount).sum = (l.out.map sinkCount).sum := by
  simp [setTrailer, h]

/-- The debts fit a `u32`, since the whole quota does. -/
theorem Conserved.outstanding_le (h : l.Conserved Q) (hQ : Q ≤ u32Max) :
    l.reassembler.payloadCredit.outstanding ≤ u32Max := by
  have := h.quota_eq
  unfold quota at this
  omega

/-- A message is charged when its payload starts to arrive, and its charge is handed out with it. -/
theorem Conserved.accept (h : l.Conserved Q) (hQ : Q ≤ u32Max) {f : Fragment}
    {wire : List Fragment} {a : Reassembler.Accepted} (hw : l.wire = f :: wire)
    (ha : l.reassembler.accept f = .ok a) : (l.accepted f wire a).Conserved Q := by
  have hphase : a.reassembler.phase = Phase.moved l.reassembler.phase f := by
    funext id
    exact Reassembler.phase_accept ha id
  refine ⟨h.framed.accept hw ha, ?_, (Reassembler.capacity_accept ha).trans h.capacity, ?_⟩
  · have ho := Reassembler.outstanding_accept ha (h.outstanding_le hQ)
    have hq := h.quota_eq
    simp only [quota, hw, payloadInFlight] at hq
    simp only [quota, accepted, hphase, List.map_append, List.sum_append]
    omega
  · intro id hne
    show a.reassembler.phase id = .payload ∨ id ∈ chargeOf a.event ++ l.held
    by_cases hid : id = f.header.id
    · subst hid
      obtain ⟨hk, n, -, rfl⟩ | ⟨hk, hacc⟩ := Reassembler.accept_cases ha
      · obtain hp | hm := h.owner _ hne
        · exact .inl hp
        · exact .inr (List.mem_append_right _ hm)
      · exact Reassembler.owner_accepts hacc (fun hne => h.owner _ hne) hne
    · rw [show (l.accepted f wire a).reassembler = a.reassembler from rfl,
        Reassembler.owed_accept ha hid] at hne
      rw [hphase, Phase.moved, if_neg (Ne.symm hid)]
      exact (h.owner id hne).imp_right fun hm => List.mem_append_right _ hm

/-- Releasing a charge moves its debt to the way back. -/
theorem Conserved.dropCharge (h : l.Conserved Q) (hQ : Q ≤ u32Max) {id : MsgId} {held : List MsgId}
    (hn : (l.dropCharge id held).Framed) (hh : ∀ id' ∈ l.held, id' ≠ id → id' ∈ held) :
    (l.dropCharge id held).Conserved Q := by
  have ho := outstanding_releaseCharge id (h.outstanding_le hQ)
  refine ⟨hn, ?_, ?_, ?_⟩
  · have hq := h.quota_eq
    unfold quota at hq
    show l.sender.payloadBudget.available + l.sender.unsent +
      payloadInFlight l.reassembler.phase l.wire +
      (releaseCharge l.reassembler.payloadCredit id).1.outstanding +
      ((l.out ++ (releaseCharge l.reassembler.payloadCredit id).2).map sinkCount).sum +
      (l.queue.map creditCount).sum + (l.back.map creditCount).sum = Q
    rw [List.map_append, List.sum_append]
    omega
  · exact (SessionWindow.capacity_settle ..).trans h.capacity
  · intro id' hne
    have hs : (l.reassembler.payloadCredit.settle id).1.owed id' ≠ 0 := hne
    rw [SessionWindow.owed_settle] at hs
    split_ifs at hs with hid
    · exact absurd rfl hs
    · exact (h.owner id' hs).imp_right fun hm => hh id' hm hid

theorem mem_eraseIdx_of_ne {ids : List MsgId} {i : ℕ} {id id' : MsgId} (hi : ids[i]? = some id)
    (hm : id' ∈ ids) (hne : id' ≠ id) : id' ∈ ids.eraseIdx i := by
  obtain ⟨j, hj⟩ := List.mem_iff_getElem?.1 hm
  refine List.mem_eraseIdx_iff_getElem?.2 ⟨j, ?_, hj⟩
  rintro rfl
  exact hne (Option.some.inj (hj.symm.trans hi))

/-- No action changes what the places on the way of the quota hold together. -/
theorem Conserved.next (h : l.Conserved Q) (hQ : Q ≤ u32Max) {a : Action} (hn : l.next a l') :
    l'.Conserved Q := by
  have hf := h.framed.next hn
  have hsound := h.framed.sound
  cases a with
  | openTrailer id => obtain ⟨-, -, rfl⟩ := hn; exact h.sender hf rfl rfl rfl
  | admitMessage id payload handles trailer =>
    obtain ⟨-, ha, rfl⟩ := hn
    have hr := Sender.reserve_admitMessage (h.framed.enqueue ha payload)
    refine h.sender hf ?_ rfl rfl
    simp only [Sender.reserve] at hr
    simp only [quota, Link.admitMessage, hr]
  | control item =>
    obtain ⟨-, -, rfl⟩ := hn
    refine h.sender hf ?_ ?_ ?_
    · cases item <;> rfl
    · cases item <;> rfl
    · cases item <;> rfl
  | cancel id =>
    obtain ⟨-, rfl⟩ := hn
    obtain ⟨send, front, back, rfl, hq, he⟩ | ⟨send, front, back, rfl, hq, he⟩ | he :=
      l.cancel_cases id
    · rw [he] at hf ⊢
      refine h.sender hf ?_ rfl rfl
      simp only [quota, cancelledWaiting, Sender.discardTrailer_budget, Sender.discardTrailer_unsent]
      rfl
    · rw [he] at hf ⊢
      refine h.sender hf ?_ rfl rfl
      have hr := hsound.reserve_cancelled hq
      have hs : (l.cancelledActive send (front ++ back)).sender.reserve =
          (l.sender.cancelled send (front ++ back)).reserve := by
        unfold cancelledActive
        split_ifs <;> rfl
      rw [← hs] at hr
      simp only [Sender.reserve] at hr
      simp only [quota, hr]
      rfl
    · rw [he]
      exact h
  | promote =>
    obtain ⟨-, rfl⟩ := hn
    have hr := hsound.reserve_promoteWaiting
    refine h.sender hf ?_ rfl rfl
    simp only [Sender.reserve] at hr
    simp only [quota, hr]
  | notice =>
    obtain ⟨-, id, notices, -, rfl⟩ := hn
    have hr := Sender.reserve_discardActiveTrailer
      { l.sender with window := (l.sender.window.settle id).1 } id
    refine h.sender hf ?_ rfl rfl
    simp only [Sender.reserve] at hr
    simp only [quota, Link.notice, hr]
    rfl
  | advance head =>
    obtain ⟨a, ha, rfl⟩ := hn
    exact h.sender hf (h.framed.quota_advance ha) rfl rfl
  | turn =>
    obtain ⟨a, ha, rfl⟩ := hn
    exact h.sender hf (h.framed.quota_turn ha) rfl rfl
  | completeLease =>
    obtain ⟨a, ha, rfl⟩ := hn
    exact h.sender hf (h.framed.quota_completeLease ha) rfl rfl
  | write i buf ready =>
    obtain ⟨p, hp, -, rfl⟩ := hn
    exact h.sender hf (h.framed.quota_write hp (p.shared.pollWrite_writes ..)) rfl rfl
  | finish i handle => obtain ⟨p, -, -, rfl⟩ := hn; exact h.sender hf rfl rfl rfl
  | abandon i => obtain ⟨p, -, -, rfl⟩ := hn; exact h.sender hf rfl rfl rfl
  | accept => obtain ⟨-, f, wire, a, hw, ha, rfl⟩ := hn; exact h.accept hQ hw ha
  | grant =>
    obtain ⟨r, s, -, -, -, rfl⟩ := hn
    exact h.trailer hf rfl rfl rfl rfl rfl (l.sum_out r.trailer rfl) rfl rfl
  | takeOver =>
    obtain ⟨r, s, -, -, -, rfl⟩ := hn
    exact h.trailer hf rfl rfl rfl rfl rfl (l.sum_out r.trailer rfl) rfl rfl
  | drain k =>
    obtain ⟨r, s, -, -, -, -, rfl⟩ := hn
    exact h.trailer hf rfl rfl rfl rfl rfl (l.sum_out r.trailer rfl) rfl rfl
  | completeRead =>
    obtain ⟨r, s, -, -, -, -, rfl⟩ := hn
    exact h.trailer hf rfl rfl rfl rfl rfl (l.sum_out r.trailer rfl) rfl rfl
  | read i n k =>
    obtain ⟨-, -, s, -, rfl⟩ := hn
    exact h.trailer hf rfl rfl rfl rfl rfl (l.sum_out i (sinkCount_pollRead ..)) rfl rfl
  | retire i =>
    obtain ⟨-, s, -, rfl⟩ := hn
    exact h.trailer hf rfl rfl rfl rfl rfl (l.sum_out i (sinkCount_retireAndEmit ..)) rfl rfl
  | setManual i =>
    obtain ⟨-, s, -, -, rfl⟩ := hn
    exact h.trailer hf rfl rfl rfl rfl rfl (l.sum_out i rfl) rfl rfl
  | release i n =>
    obtain ⟨-, s, -, -, -, rfl⟩ := hn
    exact h.trailer hf rfl rfl rfl rfl rfl (l.sum_out i (sinkCount_release ..)) rfl rfl
  | dropConsumer i =>
    obtain ⟨-, s, -, rfl⟩ := hn
    exact h.trailer hf rfl rfl rfl rfl rfl (l.sum_out i (sinkCount_discard ..)) rfl rfl
  | dropCharge i =>
    obtain ⟨id, hi, rfl⟩ := hn
    exact h.dropCharge hQ hf fun id' hm hne => mem_eraseIdx_of_ne hi hm hne
  | releaseCharge i =>
    obtain ⟨id, hi, rfl⟩ := hn
    exact h.dropCharge hQ hf fun id' hm _ => hm
  | sink =>
    obtain ⟨s, out, ho, rfl⟩ := hn
    refine h.sender hf ?_ rfl rfl
    have hq := h.quota_eq
    simp only [quota, ho, List.map_cons, List.sum_cons] at hq ⊢
    rw [creditCount_admitSink (by omega)]
    omega
  | transmit =>
    obtain ⟨c, queue, hc, rfl⟩ := hn
    refine h.sender hf ?_ rfl rfl
    simp only [quota, hc, List.map_append, List.map_cons, List.map_nil, List.sum_append,
      List.sum_cons, List.sum_nil]
    omega
  | deliver =>
    obtain ⟨c, back, hc, rfl⟩ := hn
    refine h.sender hf ?_ ?_ ?_
    · simp only [quota, hc, List.map_cons, List.sum_cons]
      cases c with
      | payloadCredit n =>
        simp only [Link.deliver, PayloadBudget.credit_available, creditCount]
        show l.sender.payloadBudget.available + n + l.sender.unsent + _ + _ + _ + _ + _ = _
        omega
      | credit =>
        simp only [Link.deliver, creditCount, Nat.zero_add]
        rfl
      | empty | abort | release => simp only [Link.deliver, creditCount, Nat.zero_add]
    · cases c <;> rfl
    · cases c <;> rfl

theorem conserved_new {kind : Kind} (hk : kind = .request ∨ kind = .response) (a b : Limits) :
    (new kind a b).Conserved (negotiate a b).maxOutstandingPayload where
  framed := framed_new hk a b
  quota_eq := rfl
  capacity := (negotiate_agree a b).maxOutstandingPayload.symm
  owner := fun _ h => absurd rfl h

/-- Nothing is on the way, and nobody holds a charge. -/
structure Retired (l : Link) : Prop where
  sends : l.sender.sends = []
  control : l.sender.control = []
  wire : l.wire = []
  held : l.held = []
  out : l.out = []
  queue : l.queue = []
  back : l.back = []

/-- The bytes that arrive are part of the sum, so the pool has room for them. -/
theorem Conserved.charge (h : l.Conserved Q) {f : Fragment} {wire : List Fragment}
    (hw : l.wire = f :: wire) : ¬l.reassembler.Overruns f
      s!"message {f.header.id} exceeded the session payload quota" := by
  have hq := h.quota_eq
  rw [quota, hw, payloadInFlight] at hq
  intro ho
  cases ho with
  | payload hk ha hp hc =>
    have hch : (l.reassembler.phase f.header.id).charges f.header = true := by
      obtain hf | ⟨entry, hl, hp⟩ := hp
      · simp [Phase.charges, hk, ha, hf]
      · rw [Reassembler.phase_of_lookup hl]
        simp [Phase.charges, hk, ha, hp]
    have hcap := h.capacity
    rw [SessionWindow.capacity] at hcap
    rw [if_pos hch] at hq
    rw [Reassembler.charge, SessionWindow.acceptBytes, if_pos (by omega)] at hc
    cases hc
  | trailer hk ha hf hl hp hc =>
    -- Trailer data that does not fit is reported in other words.
    unfold Reassembler.acceptTrailer at hc
    split at hc
    · cases hc
    · split at hc
      · have he := congrArg (fun s => s.toList.reverse.head?)
          (Error.protocol.inj (Except.error.inj hc))
        simp [Reassembler.toString_string] at he
      · cases hc

/-- Debts without an owner do not exist. -/
theorem Conserved.outstanding_eq_zero (h : l.Conserved Q) (hr : l.Retired) :
    l.reassembler.payloadCredit.outstanding = 0 := by
  apply SessionWindow.outstanding_eq_zero
  intro id
  by_contra hne
  obtain hp | hm := h.owner id hne
  · obtain ⟨send, hs, -⟩ | ⟨-, hv⟩ := h.framed.stands id
    · rw [hr.sends] at hs
      cases hs
    · simp only [view, pipeline, hr.wire, hr.control, List.map_nil, List.append_nil,
        Phase.follow_nil] at hv
      rw [hv] at hp
      cases hp
  · rw [hr.held] at hm
    cases hm

end Link

/-- The payload quota is conserved across the two ends of a direction, so that the receiver never
finds it exceeded and the sender never has more than it. When all is retired, the whole of it is
available again. -/
theorem quota_conserved (kind : Kind) (hk : kind = .request ∨ kind = .response) (a b : Limits)
    (l : Link) (h : (Link.system kind a b).Reachable l) :
    l.quota = (negotiate a b).maxOutstandingPayload ∧
      (∀ f wire, l.wire = f :: wire →
        l.reassembler.accept f ≠ .error (Reassembler.quotaExceeded f.header.id)) ∧
      l.sender.payloadBudget.available ≤ (negotiate a b).maxOutstandingPayload ∧
      (l.Retired → l.sender.payloadBudget.available = (negotiate a b).maxOutstandingPayload) := by
  have hc : l.Conserved (negotiate a b).maxOutstandingPayload := by
    refine h.invariant (I := fun l => l.Conserved (negotiate a b).maxOutstandingPayload) ?_ ?_
    · rintro l rfl
      exact Link.conserved_new hk a b
    · intro l act l' hl _ hn
      exact hl.next (negotiate_spec a b).2.1 hn
  have hq := hc.quota_eq
  refine ⟨hq, ?_, ?_, ?_⟩
  · intro f wire hw he
    exact hc.charge hw (Reassembler.accept_overruns (Reassembler.Overrun.quota _) he)
  · unfold Link.quota at hq
    omega
  · intro hr
    have h0 := hc.outstanding_eq_zero hr
    rw [Link.quota, Sender.unsent, hr.sends, hr.wire, hr.out, hr.queue, hr.back, h0] at hq
    simpa [payloadInFlight] using hq

/-- A request of three bytes that is being sent keeps the quota of the session. -/
theorem quota_conserved_request :
    ∃ l, (Link.system .request {} {}).Reachable l ∧ l.wire.length = 1 ∧
      l.quota = (negotiate {} {}).maxOutstandingPayload := by
  have ha : (Link.new .request {} {}).Admissible 1 0 none :=
    ⟨by decide, by decide, by decide, fun _ _ h => (nomatch h), fun _ h => (nomatch h)⟩
  have hr : (Link.system .request {} {}).Reachable _ :=
    .step (a := .advance 0) (.step (a := .admitMessage 1 [1, 2, 3] 0 none) (.start rfl) trivial
      ⟨rfl, ha, rfl⟩) trivial (t := _) ⟨_, rfl, rfl⟩
  exact ⟨_, hr, rfl, (quota_conserved .request (.inl rfl) {} {} _ hr).1⟩

end Dolang.Rpc
