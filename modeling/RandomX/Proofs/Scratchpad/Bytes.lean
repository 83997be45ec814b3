import Mathlib.Tactic.SplitIfs
import RandomX.Proofs.Outcome
import RandomX.Proofs.Word
import RandomX.Scratchpad

/-!
# Bytes of the scratchpad

A word is read off eight bytes. A store sets them, the low byte of the word first, and leaves all other bytes alone.
-/
namespace RandomX.Scratchpad

open Outcome

/-- The byte at an address. -/
def byte (pad : Scratchpad) (i : Nat) : UInt8 :=
  pad.bytes[i]!

variable {pad pad' : Scratchpad} {a i : Nat} {v : UInt64}

theorem byte_setByte_of_ne (pad : Scratchpad) (v : UInt8) (h : a ≠ i) : (pad.setByte a v).byte i = pad.byte i :=
  ByteArray.getElem!_set!_ne _ _ _ _ h

theorem byte_setByte_self (pad : Scratchpad) (v : UInt8) (h : a < scratchpadBytes) : (pad.setByte a v).byte a = v :=
  ByteArray.getElem!_set!_self _ _ _ (by rwa [pad.size_bytes])

theorem load_eq (pad : Scratchpad) (a : Nat) : pad.load a =
    if a + 8 ≤ scratchpadBytes then
      .ok (word64 (pad.byte a) (pad.byte (a + 1)) (pad.byte (a + 2)) (pad.byte (a + 3))
        (pad.byte (a + 4)) (pad.byte (a + 5)) (pad.byte (a + 6)) (pad.byte (a + 7)))
    else .error .outOfBounds := by
  have hs := pad.size_bytes
  rw [load]
  split_ifs with h h' h'
  · simp only [byte]
    repeat rw [getElem!_pos]
  · omega
  · omega
  · rfl

theorem load_congr (h : ∀ j < 8, pad.byte (a + j) = pad'.byte (a + j)) : pad.load a = pad'.load a := by
  rw [load_eq, load_eq, ← Nat.add_zero a, h 0 (by decide), Nat.add_zero, h 1 (by decide), h 2 (by decide),
    h 3 (by decide), h 4 (by decide), h 5 (by decide), h 6 (by decide), h 7 (by decide)]

/-- A word lies at an address, its low byte first. -/
def HoldsWord (pad : Scratchpad) (a : Nat) (w : UInt64) : Prop :=
  ∀ k < 8, (pad.byte (a + k)).toNat = w.toNat / 256 ^ k % 256

theorem HoldsWord.congr (h : pad.HoldsWord a v) (hb : ∀ k < 8, pad'.byte (a + k) = pad.byte (a + k)) :
    pad'.HoldsWord a v := by
  intro k hk
  rw [hb k hk]
  exact h k hk

theorem holdsWord_of_load {w : UInt64} (h : pad.load a = .ok w) : pad.HoldsWord a w := by
  rw [load_eq] at h
  split at h
  · rw [← Except.ok.inj h]
    intro k hk
    have hbyte (j : Nat) := (pad.byte j).toNat_lt
    have h0 := hbyte a
    have h1 := hbyte (a + 1)
    have h2 := hbyte (a + 2)
    have h3 := hbyte (a + 3)
    have h4 := hbyte (a + 4)
    have h5 := hbyte (a + 5)
    have h6 := hbyte (a + 6)
    have h7 := hbyte (a + 7)
    rw [toNat_word64]
    match k, hk with
    | 0, _ =>
      rw [Nat.add_zero]
      omega
    | 1, _ | 2, _ | 3, _ | 4, _ | 5, _ | 6, _ | 7, _ => omega
  · cases h

/-- The memory with a word written inside it. -/
def write (pad : Scratchpad) (a : Nat) (v : UInt64) : Scratchpad :=
  (((((((pad.setByte a (byte64 v 0)).setByte (a + 1) (byte64 v 8)).setByte (a + 2) (byte64 v 16)).setByte
    (a + 3) (byte64 v 24)).setByte (a + 4) (byte64 v 32)).setByte (a + 5) (byte64 v 40)).setByte
    (a + 6) (byte64 v 48)).setByte (a + 7) (byte64 v 56)

theorem store_eq (pad : Scratchpad) (a : Nat) (v : UInt64) :
    pad.store a v = if a + 8 ≤ scratchpadBytes then .ok (pad.write a v) else .error .outOfBounds := by
  rw [store, pad.size_bytes]
  rfl

theorem byte_of_store (h : pad.store a v = .ok pad') (hi : i < a ∨ a + 8 ≤ i) : pad'.byte i = pad.byte i := by
  rw [store_eq] at h
  split at h
  · rw [← Except.ok.inj h, write]
    iterate 8 rw [byte_setByte_of_ne _ _ (by omega)]
  · cases h

theorem byte_write (h : a + 8 ≤ scratchpadBytes) {k : Nat} (hk : k < 8) :
    (pad.write a v).byte (a + k) = byte64 v (8 * k).toUInt64 := by
  rw [write]
  match k, hk with
  | 0, _ | 1, _ | 2, _ | 3, _ | 4, _ | 5, _ | 6, _ | 7, _ =>
    -- The bytes behind the one asked for are written after it.
    repeat rw [byte_setByte_of_ne _ _ (by omega)]
    exact byte_setByte_self _ _ (by omega)

theorem holdsWord_of_store (h : pad.store a v = .ok pad') : pad'.HoldsWord a v := by
  rw [store_eq] at h
  split at h
  · rename_i hle
    rw [← Except.ok.inj h]
    intro k hk
    have hshift : (8 * k).toUInt64.toNat = 8 * k := Nat.mod_eq_of_lt (by omega)
    rw [byte_write hle hk, toNat_byte64 hshift (by omega), Nat.pow_mul]
    rfl
  · cases h

/-- A byte that two memories have in common stays so if the same word is written into both. -/
theorem byte_of_store_congr {q q' : Scratchpad} (hp : pad.store a v = .ok pad') (hq : q.store a v = .ok q')
    (h : q.byte i = pad.byte i) : q'.byte i = pad'.byte i := by
  by_cases hi : i < a ∨ a + 8 ≤ i
  · rw [byte_of_store hp hi, byte_of_store hq hi, h]
  · obtain ⟨k, hk, rfl⟩ : ∃ k, k < 8 ∧ i = a + k := ⟨i - a, by omega, by omega⟩
    exact UInt8.toNat_inj.mp ((holdsWord_of_store hq k hk).trans (holdsWord_of_store hp k hk).symm)

/-! ## Lines -/

/-- Writes words one behind the other. -/
def storeWords : (a : Nat) → List UInt64 → Scratchpad → Except Error Scratchpad
  | _, [], pad => return pad
  | a, w :: ws, pad => do storeWords (a + 8) ws (← pad.store a w)

theorem storeLine_eq (pad : Scratchpad) (a : Nat) (l : Line) : pad.storeLine a l = storeWords a l.toList pad := by
  simp only [storeLine, Line.toList, storeWords, Nat.add_assoc, Nat.reduceAdd, bind_pure]

theorem byte_of_storeWords {ws : List UInt64} (h : storeWords a ws pad = .ok pad')
    (hi : i < a ∨ a + 8 * ws.length ≤ i) : pad'.byte i = pad.byte i := by
  induction ws generalizing a pad with
  | nil => cases h; rfl
  | cons w ws ih =>
      obtain ⟨p, hp, h⟩ := bind_eq_ok.mp h
      rw [List.length_cons] at hi
      rw [ih h (by omega), byte_of_store hp (by omega)]

theorem holdsWord_of_storeWords {ws : List UInt64} (h : storeWords a ws pad = .ok pad') {j : Nat}
    (hj : j < ws.length) : pad'.HoldsWord (a + 8 * j) ws[j] := by
  induction ws generalizing a pad j with
  | nil => cases hj
  | cons w ws ih =>
      obtain ⟨p, hp, h⟩ := bind_eq_ok.mp h
      cases j with
      | zero => exact (holdsWord_of_store hp).congr fun k hk => byte_of_storeWords h (by omega)
      | succ j =>
          have hrest := ih h (Nat.lt_of_succ_lt_succ hj)
          rwa [Nat.add_assoc, Nat.add_comm 8, ← Nat.mul_succ] at hrest

theorem byte_of_storeLine {l : Line} (h : pad.storeLine a l = .ok pad') (hi : i < a ∨ a + 64 ≤ i) :
    pad'.byte i = pad.byte i := by
  rw [storeLine_eq] at h
  exact byte_of_storeWords h hi

theorem holdsWord_of_storeLine {l : Line} (h : pad.storeLine a l = .ok pad') {n : Nat} (hn : n < 8) :
    pad'.HoldsWord (a + 8 * n) (l.get (.ofIndex n)) := by
  rw [storeLine_eq] at h
  have hword := holdsWord_of_storeWords h (j := n) hn
  match n, hn with
  | 0, _ | 1, _ | 2, _ | 3, _ | 4, _ | 5, _ | 6, _ | 7, _ => exact hword

theorem loadLine_congr (h : ∀ j < 8, pad.load (a + 8 * j) = pad'.load (a + 8 * j)) :
    pad.loadLine a = pad'.loadLine a := by
  rw [loadLine, loadLine, ← Nat.add_zero a, h 0 (by decide), Nat.add_zero, h 1 (by decide), h 2 (by decide),
    h 3 (by decide), h 4 (by decide), h 5 (by decide), h 6 (by decide), h 7 (by decide)]

theorem loadGroup_congr (h : ∀ j < 4, pad.load (a + 8 * j) = pad'.load (a + 8 * j)) :
    pad.loadGroup a = pad'.loadGroup a := by
  simp only [loadGroup, loadPair]
  rw [← Nat.add_zero a, h 0 (by decide), Nat.add_zero, h 1 (by decide), h 2 (by decide), h 3 (by decide)]

end RandomX.Scratchpad
