import Dolang.Lib.Table
import Mathlib.Tactic.Ring

/-!
# Credit pools

`SessionWindow` is the pool of `window.rs`: what is still available, and what each message owes. One
of them stands on each side of a direction for trailer bytes, and one on the receiving side for
payload bytes. Taking from a pool and giving back move bytes between `available` and the debt of a
message, so that no operation changes `capacity`, their sum.

`PayloadBudget`, the sending side of the payload quota, is a plain counter.
-/

namespace Dolang.Rpc

/-- The id of a message. -/
abbrev MsgId := ℕ

/-- A pool of credit, with the bytes that each message has outstanding. -/
structure SessionWindow where
  available : ℕ
  debt : Table MsgId ℕ

namespace SessionWindow

variable (w : SessionWindow) (id id' : MsgId) (n : ℕ)

/-- A pool in which nothing is outstanding. -/
def new (available : ℕ) : SessionWindow :=
  ⟨available, ∅⟩

/-- What message `id` owes. -/
def owed : ℕ :=
  (w.debt.lookup id).getD 0

/-- What all messages owe together. -/
def outstanding : ℕ :=
  w.debt.total fun n => n

/-- What the pool holds, available or outstanding. -/
def capacity : ℕ :=
  w.available + w.outstanding

/-- The peer has spent every byte that it was granted. -/
def isExhausted : Bool :=
  w.available == 0

/-- Spends up to `n` bytes for message `id`, and says how many. -/
def debitUpTo : SessionWindow × ℕ :=
  let granted := min n w.available
  (⟨w.available - granted, if 0 < granted then w.debt.insert id (w.owed id + granted) else w.debt⟩,
    granted)

/-- Gives back up to `n` bytes that message `id` owes. -/
def refund : SessionWindow :=
  match w.debt.lookup id with
  | none => w
  | some debt =>
    let refund := min n debt
    ⟨w.available + refund,
      if debt - refund = 0 then w.debt.erase id else w.debt.insert id (debt - refund)⟩

/-- Gives back all that message `id` owes, and says how much that was. -/
def settle : SessionWindow × ℕ :=
  match w.debt.lookup id with
  | none => (w, 0)
  | some debt => (⟨w.available + debt, w.debt.erase id⟩, debt)

/-- Takes `n` bytes that arrive for message `id`, unless they overrun the pool. -/
def acceptBytes : Option SessionWindow :=
  if n ≤ w.available then some ⟨w.available - n, w.debt.insert id (w.owed id + n)⟩ else none

@[simp] theorem owed_new (a : ℕ) : (new a).owed id = 0 := rfl

@[simp] theorem outstanding_new (a : ℕ) : (new a).outstanding = 0 := rfl

@[simp] theorem capacity_new (a : ℕ) : (new a).capacity = a := rfl

variable {w id id' n}

theorem elim_lookup : (w.debt.lookup id).elim 0 (fun n => n) = w.owed id := by
  unfold owed
  cases w.debt.lookup id <;> rfl

theorem owed_le_outstanding : w.owed id ≤ w.outstanding := by
  unfold owed
  cases h : w.debt.lookup id with
  | none => exact Nat.zero_le _
  | some v => exact Table.le_total (fun n => n) h

/-- Without a debt of its own, no message adds to what is outstanding. -/
theorem outstanding_eq_zero (h : ∀ id, w.owed id = 0) : w.outstanding = 0 := by
  apply Table.total_eq_zero
  intro id n hn
  have := h id
  rwa [owed, hn, Option.getD_some] at this

/-- The debts of a table after an insertion. -/
theorem owed_insert (a v : ℕ) :
    owed ⟨a, w.debt.insert id v⟩ id' = if id' = id then v else w.owed id' := by
  simp only [owed, Table.lookup_insert_if]
  split_ifs <;> rfl

/-- The debts of a table after an erasure. -/
theorem owed_erase (a : ℕ) :
    owed ⟨a, w.debt.erase id⟩ id' = if id' = id then 0 else w.owed id' := by
  simp only [owed, Table.lookup_erase_if]
  split_ifs <;> rfl

theorem outstanding_insert (w : SessionWindow) (id : MsgId) (a v : ℕ) :
    outstanding ⟨a, w.debt.insert id v⟩ + w.owed id = v + w.outstanding := by
  have h := Table.total_insert (fun n => n) w.debt id v
  rwa [elim_lookup] at h

theorem outstanding_erase (w : SessionWindow) (id : MsgId) (a : ℕ) :
    outstanding ⟨a, w.debt.erase id⟩ + w.owed id = w.outstanding := by
  have h := Table.total_erase (fun n => n) w.debt id
  rwa [elim_lookup] at h

/-! ### `debitUpTo` -/

@[simp] theorem debitUpTo_snd : (w.debitUpTo id n).2 = min n w.available := rfl

@[simp] theorem debitUpTo_available : (w.debitUpTo id n).1.available = w.available - min n w.available :=
  rfl

theorem owed_debitUpTo :
    (w.debitUpTo id n).1.owed id' =
      if id' = id then w.owed id + min n w.available else w.owed id' := by
  by_cases h : 0 < min n w.available
  · simp only [debitUpTo, if_pos h]
    exact owed_insert ..
  · have h0 : min n w.available = 0 := by omega
    simp only [debitUpTo, if_neg h]
    split_ifs with hid
    · subst hid
      rw [h0]
      rfl
    · rfl

@[simp] theorem capacity_debitUpTo : (w.debitUpTo id n).1.capacity = w.capacity := by
  have hle : min n w.available ≤ w.available := Nat.min_le_right ..
  by_cases h : 0 < min n w.available
  · have hi := outstanding_insert w id (w.available - min n w.available)
      (w.owed id + min n w.available)
    simp only [debitUpTo, if_pos h, capacity]
    omega
  · simp only [debitUpTo, if_neg h, capacity, outstanding]
    omega

/-! ### `refund` -/

theorem owed_refund :
    (w.refund id n).owed id' = if id' = id then w.owed id - n else w.owed id' := by
  unfold refund
  cases hd : w.debt.lookup id with
  | none =>
    have h0 : w.owed id = 0 := by simp [owed, hd]
    split_ifs with hid
    · subst hid
      simp [h0]
    · rfl
  | some debt =>
    have h0 : w.owed id = debt := by simp [owed, hd]
    simp only [h0]
    split_ifs with hz hid hid
    · simp only [owed_erase, if_pos hid]
      omega
    · simp only [owed_erase, if_neg hid]
    · simp only [owed_insert, if_pos hid]
      omega
    · simp only [owed_insert, if_neg hid]

theorem available_refund : (w.refund id n).available = w.available + min n (w.owed id) := by
  unfold refund
  cases hd : w.debt.lookup id with
  | none => simp [owed, hd]
  | some debt => simp [owed, hd]

@[simp] theorem capacity_refund : (w.refund id n).capacity = w.capacity := by
  unfold refund
  cases hd : w.debt.lookup id with
  | none => rfl
  | some debt =>
    have h0 : w.owed id = debt := by simp [owed, hd]
    simp only [capacity]
    split_ifs with hz
    · have := outstanding_erase w id (w.available + min n debt)
      omega
    · have := outstanding_insert w id (w.available + min n debt)
        (debt - min n debt)
      omega

/-! ### `settle` -/

@[simp] theorem settle_snd : (w.settle id).2 = w.owed id := by
  unfold settle owed
  cases w.debt.lookup id <;> rfl

theorem owed_settle : (w.settle id).1.owed id' = if id' = id then 0 else w.owed id' := by
  unfold settle
  cases hd : w.debt.lookup id with
  | none =>
    split_ifs with hid
    · subst hid
      simp [owed, hd]
    · rfl
  | some debt => exact owed_erase _

theorem available_settle : (w.settle id).1.available = w.available + w.owed id := by
  unfold settle owed
  cases w.debt.lookup id <;> rfl

@[simp] theorem capacity_settle (w : SessionWindow) (id : MsgId) :
    (w.settle id).1.capacity = w.capacity := by
  unfold settle
  cases hd : w.debt.lookup id with
  | none => rfl
  | some debt =>
    have h0 : w.owed id = debt := by simp [owed, hd]
    have := outstanding_erase w id (w.available + debt)
    simp only [capacity]
    omega

theorem outstanding_settle (w : SessionWindow) (id : MsgId) :
    (w.settle id).1.outstanding + w.owed id = w.outstanding := by
  have h := capacity_settle w id
  simp only [capacity, available_settle] at h
  omega

/-! ### `acceptBytes` -/

theorem acceptBytes_eq_some {w' : SessionWindow} (h : w.acceptBytes id n = some w') :
    n ≤ w.available ∧ w' = ⟨w.available - n, w.debt.insert id (w.owed id + n)⟩ := by
  unfold acceptBytes at h
  split_ifs at h with hn
  exact ⟨hn, (Option.some.inj h).symm⟩

theorem owed_acceptBytes {w' : SessionWindow} (h : w.acceptBytes id n = some w') :
    w'.owed id' = if id' = id then w.owed id + n else w.owed id' := by
  obtain ⟨-, rfl⟩ := acceptBytes_eq_some h
  exact owed_insert ..

theorem owed_accepted {w' : SessionWindow} (h : w.acceptBytes id n = some w') :
    w'.owed id = w.owed id + n := by
  rw [owed_acceptBytes h, if_pos rfl]

theorem capacity_acceptBytes {w' : SessionWindow} (h : w.acceptBytes id n = some w') :
    w'.capacity = w.capacity := by
  obtain ⟨hn, rfl⟩ := acceptBytes_eq_some h
  have := outstanding_insert w id (w.available - n) (w.owed id + n)
  simp only [capacity]
  omega

theorem outstanding_acceptBytes {w' : SessionWindow} (h : w.acceptBytes id n = some w') :
    w'.outstanding = w.outstanding + n := by
  have hc := capacity_acceptBytes h
  obtain ⟨hn, rfl⟩ := acceptBytes_eq_some h
  simp only [capacity] at hc
  omega

end SessionWindow

/-- The sending side of the payload quota. -/
structure PayloadBudget where
  available : ℕ

namespace PayloadBudget

/-- Takes `n` bytes if all of them are there. -/
def tryDebit (b : PayloadBudget) (n : ℕ) : Option PayloadBudget :=
  if n ≤ b.available then some ⟨b.available - n⟩ else none

/-- Gives `n` bytes back. -/
def credit (b : PayloadBudget) (n : ℕ) : PayloadBudget :=
  ⟨b.available + n⟩

@[simp] theorem credit_available (b : PayloadBudget) (n : ℕ) :
    (b.credit n).available = b.available + n :=
  rfl

theorem tryDebit_eq_some {b b' : PayloadBudget} {n : ℕ} (h : b.tryDebit n = some b') :
    b'.available + n = b.available := by
  unfold tryDebit at h
  split_ifs at h with hn
  obtain rfl := Option.some.inj h
  show b.available - n + n = b.available
  omega

end PayloadBudget

/-- What a receiver hands to its own outgoing channel: `ControlSink` of `window.rs`. -/
inductive Sink where
  /-- `count` bytes of the trailer of message `id` are retired. -/
  | credit (id : MsgId) (count : ℕ)
  /-- `count` bytes of payload quota are free again. -/
  | payloadCredit (count : ℕ)
  /-- The trailer of message `id` is not wanted any more. -/
  | discard (id : MsgId)
  deriving DecidableEq, Repr

/-- `u32::MAX`. -/
def u32Max : ℕ := 2^32 - 1

/-- `PayloadCharge::release`: settles the debt of message `id`, and returns the quota to the peer
when there was any. Dropping the charge does the same. -/
def releaseCharge (w : SessionWindow) (id : MsgId) : SessionWindow × List Sink :=
  let (w, count) := w.settle id
  let count := min count u32Max
  (w, if 0 < count then [.payloadCredit count] else [])

end Dolang.Rpc
