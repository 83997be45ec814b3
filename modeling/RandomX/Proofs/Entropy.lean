import Mathlib.Data.List.Basic
import Mathlib.Logic.Function.Iterate
import RandomX.Entropy
import RandomX.Proofs.Word

/-!
# The order of entropy

The blocks behind the starting one, one after the other, are a stream of bytes. Draws read it from its beginning on,
each behind the one before, and a word that does not fit into the rest of a block begins the next one.
-/
namespace RandomX.Generator

variable {hash : Vector UInt8 64 → Vector UInt8 64} {g : Generator hash} {first : Vector UInt8 64} {n q : ℕ}

/-! ## Draws -/

inductive Draw where
  | byte
  | word
  deriving DecidableEq

def Draw.size : Draw → ℕ
  | byte => 1
  | word => 4

theorem Draw.size_pos (d : Draw) : 0 < d.size := by
  cases d <;> decide

theorem Draw.size_le (d : Draw) : d.size ≤ 64 := by
  cases d <;> decide

/-- The bytes that a draw hands out, the low byte of a word first, and the generator after it. -/
def draw (g : Generator hash) : Draw → List UInt8 × Generator hash
  | .byte =>
    let (b, g) := nextByte g
    ([b], g)
  | .word =>
    let (w, g) := nextWord g
    ([byte32 w 0, byte32 w 8, byte32 w 16, byte32 w 24], g)

/-- What draws hand out that are made one after the other. -/
def drawn (g : Generator hash) : List Draw → List (List UInt8)
  | [] => []
  | d :: draws => (g.draw d).1 :: (g.draw d).2.drawn draws

def after (g : Generator hash) : List Draw → Generator hash
  | [] => g
  | d :: draws => (g.draw d).2.after draws

/-! ## The stream -/

/-- The starting block: up to sixty bytes of the seed, zeros in the place of missing ones, and the nonce. -/
def startBytes (seed : ByteArray) (nonce : UInt32) : List UInt8 :=
  (seed.data.toList.take 60).rightpad 60 0 ++ [byte32 nonce 0, byte32 nonce 8, byte32 nonce 16, byte32 nonce 24]

theorem toList_block_ofSeed (seed : ByteArray) (nonce : UInt32) :
    (ofSeed seed nonce : Generator hash).block.toList = startBytes seed nonce := by
  have hlength : ((seed.data.toList.take 60).rightpad 60 0).length = 60 := by simp
  have hnonce (j : ℕ) (hj : j < 4) :
      byte32 nonce (8 * j.toUInt32) = [byte32 nonce 0, byte32 nonce 8, byte32 nonce 16, byte32 nonce 24][j] := by
    match j, hj with
    | 0, _ | 1, _ | 2, _ | 3, _ => rfl
  refine List.ext_getElem (by rw [Vector.length_toList, startBytes, List.length_append, hlength]; rfl) fun i hi _ => ?_
  rw [Vector.length_toList] at hi
  simp only [ofSeed, startBytes, Vector.getElem_toList, Vector.getElem_ofFn, seedByte]
  split
  · rename_i hi
    have htake : i < (seed.data.toList.take 60).length ↔ i < seed.size := by
      rw [List.length_take, Array.length_toList, ByteArray.size_data]
      omega
    rw [List.getElem_append_left (by omega)]
    simp only [List.rightpad, List.getElem_append, List.getElem_take, List.getElem_replicate, byteAt, htake]
    rfl
  · rw [List.getElem_append_right (by omega)]
    simp only [hlength]
    exact hnonce (i - 60) (by omega)

/-- The byte at a position of the blocks behind the first. -/
def streamByte (hash : Vector UInt8 64 → Vector UInt8 64) (first : Vector UInt8 64) (i : ℕ) : UInt8 :=
  (hash^[i / 64 + 1] first)[i % 64]

/-- The generator has handed out or skipped the first `n` bytes of the stream. -/
structure IsAt (first : Vector UInt8 64) (n : ℕ) (g : Generator hash) : Prop where
  position_le : g.position ≤ 64
  block : ∃ k, g.block = hash^[k] first ∧ n + 64 = 64 * k + g.position

theorem isAt_ofSeed (seed : ByteArray) (nonce : UInt32) :
    IsAt (ofSeed seed nonce : Generator hash).block 0 (ofSeed seed nonce : Generator hash) where
  position_le := Nat.le_refl 64
  block := ⟨0, rfl, rfl⟩

/-- A draw at a position: it is next, or that of the next block, and none of its bytes is in another block. -/
structure Fits (n : ℕ) (d : Draw) (q : ℕ) : Prop where
  le : n ≤ q
  lt : q < n + d.size
  skipped : q = n ∨ q % 64 = 0
  within : q % 64 + d.size ≤ 64

theorem IsAt.refill (h : IsAt first n g) (d : Draw) :
    ∃ q, Fits n d q ∧ (g.refill d.size).block = hash^[q / 64 + 1] first ∧ (g.refill d.size).position = q % 64 := by
  obtain ⟨hle, k, hblock, hn⟩ := h
  have hpos := d.size_pos
  have hsize := d.size_le
  rw [Generator.refill]
  split
  · refine ⟨n, ⟨Nat.le_refl n, by omega, .inl rfl, by omega⟩, ?_, by omega⟩
    rw [hblock, show n / 64 + 1 = k by omega]
  · refine ⟨64 * k, ⟨by omega, by omega, .inr (Nat.mul_mod_right 64 k), by omega⟩, ?_, (Nat.mul_mod_right 64 k).symm⟩
    rw [hblock, Nat.mul_div_cancel_left k (by decide), Function.iterate_succ_apply']

theorem draw_eq (g : Generator hash) (d : Draw) : ∃ h : (g.refill d.size).position + d.size ≤ 64,
    g.draw d = (List.ofFn fun j : Fin d.size => (g.refill d.size).block[(g.refill d.size).position + j],
      ⟨(g.refill d.size).block, (g.refill d.size).position + d.size⟩) := by
  refine ⟨g.refill_position_le d.size_le, ?_⟩
  cases d with
  | byte => rfl
  | word => exact Prod.ext (byte32_word32 ..) rfl

theorem IsAt.draw (h : IsAt first n g) (d : Draw) :
    ∃ q, Fits n d q ∧ (g.draw d).1 = (List.range' q d.size).map (streamByte hash first) ∧
      IsAt first (q + d.size) (g.draw d).2 := by
  obtain ⟨q, hfits, hblock, hposition⟩ := h.refill d
  have hwithin := hfits.within
  obtain ⟨_, hdraw⟩ := draw_eq g d
  refine ⟨q, hfits, ?_, ?_⟩
  · rw [hdraw]
    refine List.ext_getElem (by simp) fun j hj _ => ?_
    have hj : j < d.size := by simpa using hj
    simp only [List.getElem_ofFn, List.getElem_map, List.getElem_range', streamByte, hblock, hposition,
      show (q + 1 * j) / 64 = q / 64 by omega, show (q + 1 * j) % 64 = q % 64 + j by omega]
  · rw [hdraw]
    exact ⟨(congrArg (· + d.size) hposition).trans_le hwithin, q / 64 + 1, hblock, by simp only [hposition]; omega⟩

/-! ## Sequences of draws -/

/-- The positions of the bytes that draws at given positions hand out. -/
def positions (places : List (Draw × ℕ)) : List ℕ :=
  places.flatMap fun p => List.range' p.2 p.1.size

theorem mem_positions_cons {d : Draw} {places : List (Draw × ℕ)} {i : ℕ} :
    i ∈ positions ((d, q) :: places) ↔ (q ≤ i ∧ i < q + d.size) ∨ i ∈ positions places := by
  rw [positions, List.flatMap_cons, List.mem_append, List.mem_range'_1, positions]

/-- Draws at positions from `n` on, each behind the one before. -/
inductive Placed : ℕ → List (Draw × ℕ) → Prop where
  | nil {n : ℕ} : Placed n []
  | cons {n q : ℕ} {d : Draw} {places : List (Draw × ℕ)} (h : Fits n d q) (hrest : Placed (q + d.size) places) :
      Placed n ((d, q) :: places)

theorem IsAt.drawn (h : IsAt first n g) (draws : List Draw) :
    ∃ places, Placed n places ∧ places.map Prod.fst = draws ∧
      g.drawn draws = places.map fun p => (List.range' p.2 p.1.size).map (streamByte hash first) := by
  induction draws generalizing n g with
  | nil => exact ⟨[], .nil, rfl, rfl⟩
  | cons d draws ih =>
      obtain ⟨q, hfits, hbytes, hat⟩ := h.draw d
      obtain ⟨places, hplaced, hdraws, hrest⟩ := ih hat
      refine ⟨(d, q) :: places, hplaced.cons hfits, by rw [List.map_cons, hdraws], ?_⟩
      rw [Generator.drawn, List.map_cons, hbytes, hrest]

theorem IsAt.after (h : IsAt first n g) (draws : List Draw) : ∃ m, IsAt first m (g.after draws) := by
  induction draws generalizing n g with
  | nil => exact ⟨n, h⟩
  | cons d draws ih =>
      obtain ⟨_, _, _, hat⟩ := h.draw d
      exact ih hat

namespace Placed

variable {places : List (Draw × ℕ)} {i : ℕ}

theorem le_of_mem (h : Placed n places) (hi : i ∈ positions places) : n ≤ i := by
  induction h with
  | nil => cases hi
  | cons hfits _ ih =>
      have hle := hfits.le
      rcases mem_positions_cons.mp hi with hi | hi
      · exact hle.trans hi.1
      · exact hle.trans ((Nat.le_add_right _ _).trans (ih hi))

theorem pairwise_positions (h : Placed n places) : (positions places).Pairwise (· < ·) := by
  induction h with
  | nil => exact .nil
  | cons _ hrest ih =>
      refine List.pairwise_append.mpr ⟨List.pairwise_lt_range', ih, fun i hi j hj => ?_⟩
      exact (List.mem_range'_1.mp hi).2.trans_le (hrest.le_of_mem hj)

theorem within (h : Placed n places) : ∀ p ∈ places, p.2 % 64 + p.1.size ≤ 64 := by
  induction h with
  | nil => simp
  | cons hfits _ ih => exact List.forall_mem_cons.mpr ⟨hfits.within, ih⟩

/-- A byte that is not handed out lies at the end of a block, and a word follows that begins the next one. -/
theorem skipped (h : Placed n places) (hn : n ≤ i) (hi : i ∉ positions places) (hlt : ∃ j ∈ positions places, i < j) :
    ∃ q, (Draw.word, q) ∈ places ∧ q % 64 = 0 ∧ i < q ∧ q ≤ i + 3 := by
  induction h with
  | nil => simp [positions] at hlt
  | @cons n q d places hfits hrest ih =>
      rw [mem_positions_cons, not_or] at hi
      by_cases hq : i < q
      · have hbehind := hfits.lt
        cases d with
        | byte =>
            simp only [Draw.size] at hbehind
            omega
        | word =>
            simp only [Draw.size] at hbehind
            exact ⟨q, List.mem_cons_self, hfits.skipped.resolve_left (by omega), hq, by omega⟩
      · obtain ⟨j, hj, hlt⟩ := hlt
        have hj := (mem_positions_cons.mp hj).resolve_left (by omega)
        obtain ⟨p, hp, hrest⟩ := ih (by omega) hi.2 ⟨j, hj, hlt⟩
        exact ⟨p, List.mem_cons_of_mem _ hp, hrest⟩

end Placed

/-- Draws read the stream in order and never twice. Their bytes are those at increasing positions, a word lies in one
block, and all that is left out are at most three bytes at the end of a block where a word was drawn that they do not
hold. The generator never looks behind its block. -/
theorem entropy_is_read_in_order (hash : Vector UInt8 64 → Vector UInt8 64) (seed : ByteArray) (nonce : UInt32) :
    let g : Generator hash := ofSeed seed nonce
    g.block.toList = startBytes seed nonce ∧
    ∀ draws,
      (∃ places, places.map Prod.fst = draws ∧
        g.drawn draws = places.map (fun p => (List.range' p.2 p.1.size).map (streamByte hash g.block)) ∧
        (positions places).Pairwise (· < ·) ∧
        (∀ p ∈ places, p.2 % 64 + p.1.size ≤ 64) ∧
        ∀ i, i ∉ positions places → (∃ j ∈ positions places, i < j) →
          ∃ q, (Draw.word, q) ∈ places ∧ q % 64 = 0 ∧ i < q ∧ q ≤ i + 3) ∧
      (g.after draws).position ≤ 64 ∧ ∀ d : Draw, ((g.after draws).refill d.size).position + d.size ≤ 64 := by
  intro g
  have hstart : IsAt g.block 0 g := isAt_ofSeed seed nonce
  refine ⟨toList_block_ofSeed seed nonce, fun draws => ⟨?_, ?_, fun d => refill_position_le _ d.size_le⟩⟩
  · obtain ⟨places, hplaced, hdraws, hbytes⟩ := hstart.drawn draws
    exact ⟨places, hdraws, hbytes, hplaced.pairwise_positions, hplaced.within,
      fun i hi hlt => hplaced.skipped (Nat.zero_le i) hi hlt⟩
  · obtain ⟨_, hat⟩ := hstart.after draws
    exact hat.position_le

/-- Two bytes of the first block are left when the word is drawn. -/
example : (drawn (ofSeed .empty 0 : Generator fun v => v.map (· + 1)) (.replicate 62 .byte ++ [.word])).getLast? =
    some [2, 2, 2, 2] := by
  decide +kernel

end RandomX.Generator
