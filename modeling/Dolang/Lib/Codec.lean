import Mathlib.Algebra.Group.Nat.Defs
import Mathlib.Data.List.Basic
import Mathlib.Tactic.Common

/-!
# Codecs

A codec writes values as bytes and reads them back from the front of a byte string, whatever follows.
Numbers are written in groups of seven bits, least significant first, with the high bit of each byte
saying whether more follow; what is composed is written part by part, and a list after its length.
-/

namespace Dolang

/-- A way to write values of a type that reads them back. -/
structure Codec (α : Type) where
  encode : α → List UInt8
  decode : List UInt8 → Option (α × List UInt8)
  decode_encode (a : α) (rest : List UInt8) : decode (encode a ++ rest) = some (a, rest)

namespace Codec

variable {α β : Type}

/-- What the front of a byte string stands for. -/
def read (c : Codec α) (bytes : List UInt8) : Option α :=
  (c.decode bytes).map Prod.fst

theorem read_encode (c : Codec α) (a : α) : c.read (c.encode a) = some a := by
  have h := c.decode_encode a []
  rw [List.append_nil] at h
  rw [read, h]
  rfl

/-- A single byte. -/
def byte : Codec UInt8 where
  encode b := [b]
  decode
    | [] => none
    | b :: rest => some (b, rest)
  decode_encode _ _ := rfl

/-- The bytes of a number. -/
def natBytes (n : ℕ) : List UInt8 :=
  if n < 128 then [UInt8.ofNat n] else UInt8.ofNat (n % 128 + 128) :: natBytes (n / 128)

/-- Reads the bytes of a number. -/
def readNat : List UInt8 → Option (ℕ × List UInt8)
  | [] => none
  | b :: rest =>
    if b.toNat < 128 then some (b.toNat, rest)
    else (readNat rest).map fun p => (b.toNat - 128 + 128 * p.1, p.2)

theorem readNat_natBytes (n : ℕ) (rest : List UInt8) :
    readNat (natBytes n ++ rest) = some (n, rest) := by
  induction n using natBytes.induct with
  | case1 n h =>
    have hb : (UInt8.ofNat n).toNat = n := UInt8.toNat_ofNat_of_lt' (by simp only [UInt8.size]; omega)
    rw [natBytes, if_pos h, List.cons_append, readNat, hb, if_pos h, List.nil_append]
  | case2 n h ih =>
    have hb : (UInt8.ofNat (n % 128 + 128)).toNat = n % 128 + 128 :=
      UInt8.toNat_ofNat_of_lt' (by simp only [UInt8.size]; omega)
    rw [natBytes, if_neg h, List.cons_append, readNat, hb, if_neg (by omega), ih, Option.map_some,
      Nat.add_sub_cancel, Nat.mod_add_div]

theorem natBytes_length (n : ℕ) : 0 < (natBytes n).length := by
  rw [natBytes]
  split <;> simp

/-- A number of `k + 1` groups takes as many bytes at most. -/
theorem natBytes_length_le {k n : ℕ} (h : n < 128 ^ (k + 1)) : (natBytes n).length ≤ k + 1 := by
  induction k generalizing n with
  | zero =>
    rw [natBytes, if_pos (by simpa using h)]
    exact Nat.le_refl 1
  | succ k ih =>
    rw [natBytes]
    split
    · exact Nat.le_add_left ..
    · rw [List.length_cons]
      exact Nat.succ_le_succ (ih (Nat.div_lt_of_lt_mul (by rwa [← Nat.pow_succ'])))

theorem natBytes_length_le_succ (n : ℕ) : (natBytes n).length ≤ n + 1 :=
  natBytes_length_le (Nat.lt_trans (Nat.lt_succ_self n) (Nat.lt_pow_self (by omega)))

def nat : Codec ℕ where
  encode := natBytes
  decode := readNat
  decode_encode := readNat_natBytes

/-- Values that another codec's values stand for. -/
def map (c : Codec α) (f : α → β) (g : β → α) (h : ∀ b, f (g b) = b) : Codec β where
  encode b := c.encode (g b)
  decode bytes := (c.decode bytes).map fun p => (f p.1, p.2)
  decode_encode b rest := by rw [c.decode_encode, Option.map_some, h]

/-- A value and then another. -/
def pair (c : Codec α) (d : Codec β) : Codec (α × β) where
  encode p := c.encode p.1 ++ d.encode p.2
  decode bytes := do
    let (a, rest) ← c.decode bytes
    let (b, rest) ← d.decode rest
    return ((a, b), rest)
  decode_encode p rest := by
    rw [List.append_assoc, c.decode_encode, Option.bind_eq_bind, Option.bind_some]
    dsimp only
    rw [d.decode_encode]
    rfl

/-- `n` values. -/
def decodeMany (c : Codec α) : ℕ → List UInt8 → Option (List α × List UInt8)
  | 0, bytes => some ([], bytes)
  | n + 1, bytes => do
    let (a, rest) ← c.decode bytes
    let (as, rest) ← c.decodeMany n rest
    return (a :: as, rest)

theorem decodeMany_flatMap (c : Codec α) (as : List α) (rest : List UInt8) :
    c.decodeMany as.length (as.flatMap c.encode ++ rest) = some (as, rest) := by
  induction as with
  | nil => rfl
  | cons a as ih =>
    rw [List.flatMap_cons, List.append_assoc, List.length_cons, decodeMany, c.decode_encode,
      Option.bind_eq_bind, Option.bind_some]
    dsimp only
    rw [ih]
    rfl

/-- As many values as the type says. -/
def array (c : Codec α) (n : ℕ) : Codec { as : List α // as.length = n } where
  encode as := as.1.flatMap c.encode
  decode bytes := (c.decodeMany n bytes).bind fun p =>
    if h : p.1.length = n then some (⟨p.1, h⟩, p.2) else none
  decode_encode as rest := by
    obtain ⟨as, rfl⟩ := as
    rw [decodeMany_flatMap, Option.bind_some, dif_pos rfl]

theorem length_le_flatMap {f : α → List UInt8} (hf : ∀ a, 0 < (f a).length) (as : List α) :
    as.length ≤ (as.flatMap f).length := by
  induction as with
  | nil => exact Nat.le_refl _
  | cons a as ih =>
    have ha := hf a
    rw [List.flatMap_cons, List.length_append, List.length_cons]
    omega

theorem flatMap_length_le {f : α → List UInt8} {k : ℕ} (hf : ∀ a, (f a).length ≤ k) (as : List α) :
    (as.flatMap f).length ≤ k * as.length := by
  induction as with
  | nil => exact Nat.zero_le _
  | cons a as ih =>
    rw [List.flatMap_cons, List.length_append, List.length_cons, Nat.mul_succ, Nat.add_comm]
    exact Nat.add_le_add ih (hf a)

/-- A list, after its length. -/
def list (c : Codec α) : Codec (List α) where
  encode as := natBytes as.length ++ as.flatMap c.encode
  decode bytes := do
    let (n, rest) ← readNat bytes
    c.decodeMany n rest
  decode_encode as rest := by
    rw [List.append_assoc, readNat_natBytes, Option.bind_eq_bind, Option.bind_some]
    dsimp only
    rw [decodeMany_flatMap]

/-- A value or nothing, after a byte that says which. -/
def option (c : Codec α) : Codec (Option α) where
  encode
    | none => [0]
    | some a => 1 :: c.encode a
  decode
    | 0 :: rest => some (none, rest)
    | 1 :: rest => (c.decode rest).map fun p => (some p.1, p.2)
    | _ => none
  decode_encode o rest := by
    cases o with
    | none => rfl
    | some a =>
      show (c.decode (c.encode a ++ rest)).map _ = _
      rw [c.decode_encode, Option.map_some]

end Codec

end Dolang
