import Mathlib.Data.List.Induction
import RandomX.Proofs.Binary64.Integer
import RandomX.Proofs.Scratchpad.Bounds
import RandomX.Proofs.Scratchpad.Bytes

/-!
# Stores

Words are stored at addresses of any alignment, also across one another. A store that would leave the memory is refused and
changes nothing. Any other one settles its eight bytes until the next store that covers them.
-/
namespace RandomX.Scratchpad

/-- A word to be stored at an address. -/
structure Store where
  address : UInt32
  value : UInt64

namespace Store

/-- The store stays inside the memory, and a byte is one of its eight. -/
def covers (s : Store) (i : ℕ) : Bool :=
  s.address.toNat + 8 ≤ scratchpadBytes && s.address.toNat ≤ i && i < s.address.toNat + 8

/-- What is stored in a byte that is covered. -/
def byteAt (s : Store) (i : ℕ) : ℕ :=
  s.value.toNat / 256 ^ (i - s.address.toNat) % 256

end Store

/-- The outcome of a store, with the memory after it. -/
def answer (pad : Scratchpad) (s : Store) : Except Error Unit × Scratchpad :=
  match pad.store s.address.toNat s.value with
  | .ok pad' => (.ok (), pad')
  | .error e => (.error e, pad)

/-- The memory after stores in order. -/
def after (pad : Scratchpad) (stores : List Store) : Scratchpad :=
  stores.foldl (fun p s => (p.answer s).2) pad

/-- What the last store that covers a byte has left in it, or what was there before all of them. -/
def lastByte (pad : Scratchpad) (stores : List Store) (i : ℕ) : ℕ :=
  match stores.reverse.find? (·.covers i) with
  | some s => s.byteAt i
  | none => (pad.byte i).toNat

variable (pad : Scratchpad) (s : Store)

theorem answer_of_lt (h : scratchpadBytes < s.address.toNat + 8) : pad.answer s = (.error .outOfBounds, pad) := by
  rw [answer, store_eq, if_neg (Nat.not_le.mpr h)]

theorem answer_of_store {pad' : Scratchpad} (h : pad.store s.address.toNat s.value = .ok pad') :
    pad.answer s = (.ok (), pad') := by
  rw [answer, h]

/-! ## Bytes -/

theorem byte_answer (i : ℕ) :
    ((pad.answer s).2.byte i).toNat = if s.covers i then s.byteAt i else (pad.byte i).toNat := by
  by_cases hle : s.address.toNat + 8 ≤ scratchpadBytes
  · obtain ⟨pad', hstore⟩ := pad.store_of_le s.value hle
    rw [answer_of_store pad s hstore]
    by_cases hi : s.address.toNat ≤ i ∧ i < s.address.toNat + 8
    · obtain ⟨k, rfl⟩ := Nat.exists_eq_add_of_le hi.1
      rw [if_pos (by simp [Store.covers, hle, hi]), Store.byteAt, Nat.add_sub_cancel_left]
      exact holdsWord_of_store hstore k (by omega)
    · rw [if_neg (by simpa [Store.covers, hle] using hi), byte_of_store hstore (by omega)]
  · rw [answer_of_lt pad s (Nat.not_le.mp hle), if_neg (by simp [Store.covers, hle])]

theorem byte_after (stores : List Store) (i : ℕ) : ((pad.after stores).byte i).toNat = pad.lastByte stores i := by
  induction stores using List.reverseRecOn with
  | nil => rfl
  | append_singleton stores s ih =>
      rw [after, List.foldl_append, List.foldl_cons, List.foldl_nil, ← after, byte_answer, ih, lastByte, lastByte,
        List.reverse_append, List.reverse_singleton, List.singleton_append, List.find?_cons]
      cases s.covers i <;> rfl

/-! ## Words -/

theorem loadPair_of_load {pad : Scratchpad} {a : ℕ} {w : UInt64} (h : pad.load a = .ok w) :
    pad.loadPair a = .ok ⟨.ofInt32 w.toUInt32, .ofInt32 (w >>> 32).toUInt32⟩ := by
  rw [loadPair, h]
  rfl

/-- A store after any others is refused if it leaves the memory, and no byte changes then. Each byte of a word that is
loaded after them is what the last store over it has left there, and the two halves of the word are loaded as the doubles
equal to them. -/
theorem stores_settle_bytes (pad : Scratchpad) (stores : List Store) :
    (∀ s : Store,
      (2 ^ 21 < s.address.toNat + 8 → (pad.after stores).answer s = (.error .outOfBounds, pad.after stores)) ∧
      (s.address.toNat + 8 ≤ 2 ^ 21 → ((pad.after stores).answer s).1 = .ok ())) ∧
    ∀ b ≤ 2 ^ 21 - 8, ∃ w x, (pad.after stores).load b = .ok w ∧
      (∀ k < 8, w.toNat / 256 ^ k % 256 = pad.lastByte stores (b + k)) ∧
      (pad.after stores).loadPair b = .ok x ∧ x.lo.IsInteger (Int.bmod (w.toNat % 2 ^ 32 : ℕ) (2 ^ 32)) ∧
      x.hi.IsInteger (Int.bmod (w.toNat / 2 ^ 32 : ℕ) (2 ^ 32)) := by
  refine ⟨fun s => ⟨answer_of_lt _ s, fun hle => ?_⟩, fun b hb => ?_⟩
  · obtain ⟨pad', hstore⟩ := (pad.after stores).store_of_le s.value hle
    rw [answer_of_store _ s hstore]
  · obtain ⟨w, hw⟩ := (pad.after stores).load_of_le (show b + 8 ≤ 2 ^ 21 by omega)
    refine ⟨w, _, hw, fun k hk => ?_, loadPair_of_load hw, ?_, ?_⟩
    · rw [← holdsWord_of_load hw k hk, byte_after]
    · rw [← UInt64.toNat_toUInt32]
      exact Binary64.ofInt32_isInteger _
    · have hhigh : (w >>> 32).toUInt32.toNat = w.toNat / 2 ^ 32 := by
        have hlt := w.toNat_lt
        rw [UInt64.toNat_toUInt32, toNat_shiftRight_of_lt (n := 32) rfl (by decide)]
        exact Nat.mod_eq_of_lt (by omega)
      rw [← hhigh]
      exact Binary64.ofInt32_isInteger _

/-- The second word is stored across the first from its fourth byte on, and a third one would leave the memory. -/
theorem overlapping_stores_mix :
    let stores : List Store := [⟨8, 0x1122334455667788⟩, ⟨11, 0xFFFFFFFFFFFFFFFF⟩, ⟨0x1FFFF9, 1⟩]
    let pad := blank.after stores
    pad.answer ⟨0x1FFFF9, 1⟩ = (.error .outOfBounds, pad) ∧ (pad.answer ⟨0x1FFFF8, 1⟩).1 = .ok () ∧
      pad.load 8 = .ok 0xFFFFFFFFFF667788 ∧
      ∃ x, pad.loadPair 8 = .ok x ∧ x.lo.IsInteger (-10061944) ∧ x.hi.IsInteger (-1) := by
  intro stores pad
  obtain ⟨hanswer, hload⟩ := stores_settle_bytes blank stores
  obtain ⟨w, x, hw, hbytes, hx, hlo, hhi⟩ := hload 8 (by decide)
  have hlast : ∀ k < 8, blank.lastByte stores (8 + k) = (0xFFFFFFFFFF667788 : UInt64).toNat / 256 ^ k % 256 := by decide
  obtain rfl : w = 0xFFFFFFFFFF667788 :=
    UInt64.toNat_inj.mp (eq_of_bytes w.toNat_lt (by decide) fun k hk => (hbytes k hk).trans (hlast k hk))
  have hlow : Int.bmod ((0xFFFFFFFFFF667788 : UInt64).toNat % 2 ^ 32 : ℕ) (2 ^ 32) = -10061944 := by decide
  have hhigh : Int.bmod ((0xFFFFFFFFFF667788 : UInt64).toNat / 2 ^ 32 : ℕ) (2 ^ 32) = -1 := by decide
  rw [hlow] at hlo
  rw [hhigh] at hhi
  exact ⟨(hanswer _).1 (by decide), (hanswer _).2 (by decide), hw, x, hx, hlo, hhi⟩

end RandomX.Scratchpad
