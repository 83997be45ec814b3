import Mathlib.Algebra.Group.Nat.Defs
import Mathlib.Data.List.Basic
import Mathlib.Tactic.Choose
import RandomX.Cache

/-!
# Lines of the memory

The words of all blocks, one block after the other, are the memory as a list. A word that is asked for by its number is
an element of that list, and the line that a register value selects is a stretch of eight of its elements. So the lines,
laid end to end, are the memory again.
-/
namespace RandomX

/-! ## Lists in parts of one length -/

section

variable {α β : Type} {f : α → List β} {n : ℕ}

theorem length_flatMap (hf : ∀ x, (f x).length = n) (xs : List α) : (xs.flatMap f).length = n * xs.length := by
  induction xs with
  | nil => rfl
  | cons x xs ih => rw [List.flatMap_cons, List.length_append, ih, hf, List.length_cons, Nat.mul_succ, Nat.add_comm]

theorem drop_flatMap (hf : ∀ x, (f x).length = n) (xs : List α) (k : ℕ) :
    (xs.flatMap f).drop (n * k) = (xs.drop k).flatMap f := by
  induction xs generalizing k with
  | nil => simp
  | cons x xs ih =>
      cases k with
      | zero => rfl
      | succ k =>
          rw [List.flatMap_cons, Nat.mul_succ, Nat.add_comm, ← List.drop_drop, ← hf x, List.drop_left, hf x, ih,
            List.drop_succ_cons]

/-- A stretch that does not leave its part. -/
theorem take_drop_flatMap (hf : ∀ x, (f x).length = n) {xs : List α} {k p q : ℕ} {x : α} (hx : xs[k]? = some x)
    (hq : p + q ≤ n) : ((xs.flatMap f).drop (n * k + p)).take q = ((f x).drop p).take q := by
  obtain ⟨hk, rfl⟩ := List.getElem?_eq_some_iff.mp hx
  have hpart : q ≤ ((f xs[k]).drop p).length := by
    rw [List.length_drop, hf]
    omega
  rw [← List.drop_drop, drop_flatMap hf, List.drop_eq_getElem_cons hk, List.flatMap_cons,
    List.drop_append_of_le_length (by rw [hf]; omega), List.take_append_of_le_length hpart]

theorem getElem?_flatMap (hf : ∀ x, (f x).length = n) (hn : 0 < n) (xs : List α) (i : ℕ) :
    (xs.flatMap f)[i]? = xs[i / n]?.bind fun x => (f x)[i % n]? := by
  have hi : (xs.flatMap f)[i]? = ((xs.drop (i / n)).flatMap f)[i % n]? := by
    rw [← drop_flatMap hf, List.getElem?_drop, Nat.div_add_mod]
  rw [hi]
  cases hx : xs[i / n]? with
  | none =>
      rw [List.drop_eq_nil_of_le (List.getElem?_eq_none_iff.mp hx)]
      rfl
  | some x =>
      obtain ⟨hk, rfl⟩ := List.getElem?_eq_some_iff.mp hx
      rw [List.drop_eq_getElem_cons hk, List.flatMap_cons,
        List.getElem?_append_left (by rw [hf]; exact Nat.mod_lt i hn), Option.bind_some]

/-- The first elements in parts that follow one another. -/
theorem take_mul_eq_flatMap (xs : List β) (n k : ℕ) :
    xs.take (n * k) = (List.range k).flatMap fun i => (xs.drop (n * i)).take n := by
  induction k with
  | zero => simp
  | succ k ih =>
      rw [Nat.mul_succ, List.take_add, ih, List.range_succ, List.flatMap_append, List.flatMap_singleton]

end

namespace Cache

open Argon2 (Block)

variable {c : Cache} {v w : UInt64} {i j start : ℕ} {line : Line} {b : Block}

/-! ## Words -/

/-- The words of the memory in order. -/
def words (c : Cache) : List UInt64 :=
  c.blocks.toList.flatMap Block.words

/-- Any words that fill a block are the words of exactly one. -/
theorem existsUnique_block {ws : List UInt64} (h : ws.length = blockWords) : ∃! b : Block, b.words = ws := by
  have hws : (Block.ofFn fun i => ws.getD i 0).words = ws := by
    rw [Block.words_ofFn]
    refine List.ext_getElem ?_ fun i _ hi => ?_
    · rw [List.length_map, List.length_range, h]
      rfl
    · simp [hi]
  exact ⟨_, hws, fun b hb => Block.words_inj (hb.trans hws.symm)⟩

theorem word_eq_ok_iff : c.word i = .ok w ↔ c.words[i]? = some w := by
  rw [word, words, getElem?_flatMap Block.length_words (by decide), Array.getElem?_toList]
  change _ ↔ (c.blocks[i / blockWords]?.bind fun b => b.words[i % blockWords]?) = some w
  cases c.blocks[i / blockWords]?.bind fun b => b.words[i % blockWords]? with
  | none => simp
  | some w' => simp

theorem length_words (h : c.blocks.size = cacheBlocks) : c.words.length = 2 ^ 25 := by
  rw [words, length_flatMap Block.length_words, Array.length_toList, h]
  rfl

/-! ## Lines -/

theorem lineFrom_spec (b : Block) (h : start + 8 ≤ blockWords) :
    ∃ line, lineFrom b start = .ok line ∧ line.toList = (b.words.drop start).take 8 := by
  have hlength : 8 ≤ (b.words.drop start).length := by
    rw [List.length_drop, Block.length_words]
    exact Nat.le_sub_of_add_le' h
  rw [lineFrom]
  generalize b.words.drop start = ws at hlength
  match ws, hlength with
  | w0 :: w1 :: w2 :: w3 :: w4 :: w5 :: w6 :: w7 :: _, _ => exact ⟨_, rfl, rfl⟩

theorem toNat_and_cacheLineMask (v : UInt64) : (v &&& cacheLineMask).toNat = v.toNat % 2 ^ 22 := by
  rw [UInt64.toNat_and]
  exact Nat.and_two_pow_sub_one_eq_mod v.toNat 22

/-- The line at an index lies in one block: sixteen lines are a block. -/
theorem mixLine_spec (h : c.blocks.size = cacheBlocks) (v : UInt64) :
    ∃ b start line, c.blocks[v.toNat % 2 ^ 22 / 16]? = some b ∧
      128 * (v.toNat % 2 ^ 22 / 16) + start = 8 * (v.toNat % 2 ^ 22) ∧ start + 8 ≤ blockWords ∧
      c.mixLine v = .ok line ∧ line.toList = (b.words.drop start).take 8 := by
  have hlt : v.toNat % 2 ^ 22 / 16 < c.blocks.size := by
    rw [h, cacheBlocks]
    omega
  have hblock : v.toNat % 2 ^ 22 * lineBytes / blockBytes = v.toNat % 2 ^ 22 / 16 :=
    Nat.mul_div_mul_right _ 16 (by decide)
  have hstart : v.toNat % 2 ^ 22 * lineBytes % blockBytes / 8 = 8 * (v.toNat % 2 ^ 22 % 16) := by
    rw [lineBytes, blockBytes]
    omega
  have hend : 8 * (v.toNat % 2 ^ 22 % 16) + 8 ≤ blockWords := by
    rw [blockWords, blockBytes]
    omega
  obtain ⟨line, hline, hwords⟩ := lineFrom_spec c.blocks[v.toNat % 2 ^ 22 / 16] hend
  refine ⟨_, _, line, Array.getElem?_eq_getElem hlt, by omega, hend, ?_, hwords⟩
  rw [mixLine]
  simp only [toNat_and_cacheLineMask, hblock, hstart, Array.getElem?_eq_getElem hlt, hline]

/-- The line that a register value selects is a stretch of the memory. -/
theorem exists_mixLine (h : c.blocks.size = cacheBlocks) (v : UInt64) :
    ∃ line, c.mixLine v = .ok line ∧ line.toList = (c.words.drop (8 * (v.toNat % 2 ^ 22))).take 8 := by
  obtain ⟨b, start, line, hb, hstart, hend, hline, hwords⟩ := mixLine_spec h v
  refine ⟨line, hline, hwords.trans ?_⟩
  rw [← hstart, words, take_drop_flatMap Block.length_words (Array.getElem?_toList.trans hb) hend]

theorem mixLine_congr (c : Cache) (h : v.toNat % 2 ^ 22 = w.toNat % 2 ^ 22) : c.mixLine v = c.mixLine w := by
  simp only [mixLine, toNat_and_cacheLineMask, h]

/-- Position `j` of a stretch of eight words. -/
theorem word_of_toList_eq (h : line.toList = (c.words.drop start).take 8) (hj : j < 8) :
    c.word (start + j) = .ok (line.get (.ofIndex j)) := by
  rw [word_eq_ok_iff, ← List.getElem?_drop, ← List.getElem?_take_of_lt hj, ← h, line.getElem?_toList hj]

/-- The line is the one of the memory at an index. -/
def IsLineAt (c : Cache) (n : Nat) (line : Line) : Prop :=
  ∀ r : Reg, c.word (8 * n + r.index) = .ok (line.get r)

theorem isLineAt_of_toList_eq {n : ℕ} (h : line.toList = (c.words.drop (8 * n)).take 8) : c.IsLineAt n line := by
  intro r
  rw [word_of_toList_eq h r.index_lt, Reg.ofIndex_index]

/-- The lines of the memory, laid end to end, are the memory. -/
theorem exists_lines (h : c.blocks.size = cacheBlocks) :
    ∃ lines : List Line, (List.range (2 ^ 22)).map (fun n => c.mixLine n.toUInt64) = lines.map .ok ∧
      lines.flatMap Line.toList = c.words := by
  choose lineOf hlineOf using exists_mixLine h
  refine ⟨(List.range (2 ^ 22)).map fun n => lineOf n.toUInt64, ?_, ?_⟩
  · rw [List.map_map]
    exact List.map_congr_left fun n _ => (hlineOf _).1
  · have hwords : c.words.take (8 * 2 ^ 22) = c.words := List.take_of_length_le (Nat.le_of_eq (length_words h))
    rw [← hwords, take_mul_eq_flatMap, List.flatMap_map]
    refine List.flatMap_congr fun n hn => ?_
    have hn : n.toUInt64.toNat % 2 ^ 22 = n := by
      rw [List.mem_range] at hn
      rw [UInt64.toNat_ofNat_of_lt' (Nat.lt_trans hn (by decide)), Nat.mod_eq_of_lt hn]
    rw [(hlineOf _).2, hn]

/-! ## Positions -/

/-- Position `j` of the line that `v` selects is word `i`, whatever the memory holds. -/
def IsPosition (v : UInt64) (j i : ℕ) : Prop :=
  ∀ c : Cache, c.blocks.size = cacheBlocks →
    ∃ line w, c.mixLine v = .ok line ∧ line.toList[j]? = some w ∧ c.word i = .ok w

/-- The memory whose word `i` is `i`. -/
def counting : Cache :=
  ⟨Array.ofFn fun k : Fin cacheBlocks => .ofFn fun j => (blockWords * k + j).toUInt64, [], none⟩

theorem size_blocks_counting : counting.blocks.size = cacheBlocks := by
  rw [counting, Array.size_ofFn]

theorem word_counting (hi : i < 2 ^ 25) : counting.word i = .ok i.toUInt64 := by
  have hk : i / blockWords < cacheBlocks := by
    rw [blockWords, blockBytes, cacheBlocks]
    omega
  have hj : i % blockWords < 128 := Nat.mod_lt i (by decide)
  have hblock :
      counting.blocks[i / blockWords]? = some (.ofFn fun j => (blockWords * (i / blockWords) + j).toUInt64) := by
    rw [counting, Array.getElem?_ofFn, dif_pos hk]
  rw [word, hblock, Option.bind_some, Block.words_ofFn, List.getElem?_map, List.getElem?_range hj, Option.map_some,
    Nat.div_add_mod]

theorem lt_of_word (h : c.blocks.size = cacheBlocks) (hw : c.word i = .ok w) : i < 2 ^ 25 := by
  rw [word_eq_ok_iff] at hw
  obtain ⟨hi, -⟩ := List.getElem?_eq_some_iff.mp hw
  rwa [length_words h] at hi

theorem word_counting_inj (hi : counting.word i = .ok w) (hj : counting.word j = .ok w) : i = j := by
  have hlt (k : ℕ) (hk : counting.word k = .ok w) : k = w.toNat := by
    have hk' := lt_of_word size_blocks_counting hk
    rw [word_counting hk'] at hk
    cases hk
    exact (UInt64.toNat_ofNat_of_lt' (Nat.lt_trans hk' (by decide))).symm
  rw [hlt i hi, hlt j hj]

theorem isPosition_iff : IsPosition v j i ↔ j < 8 ∧ i = 8 * (v.toNat % 2 ^ 22) + j := by
  constructor
  · intro h
    obtain ⟨line, w, hline, hw, hword⟩ := h counting size_blocks_counting
    obtain ⟨line', hline', hwords⟩ := exists_mixLine size_blocks_counting v
    cases hline.symm.trans hline'
    obtain ⟨hj, -⟩ := List.getElem?_eq_some_iff.mp hw
    rw [line.getElem?_toList hj] at hw
    cases hw
    exact ⟨hj, word_counting_inj hword (word_of_toList_eq hwords hj)⟩
  · rintro ⟨hj, rfl⟩ c h
    obtain ⟨line, hline, hwords⟩ := exists_mixLine h v
    exact ⟨line, _, hline, line.getElem?_toList hj, word_of_toList_eq hwords hj⟩

/-- Each word lies in one line, at one position of it. -/
theorem existsUnique_isPosition (hi : i < 2 ^ 25) : ∃! p : UInt64 × ℕ, p.1.toNat < 2 ^ 22 ∧ IsPosition p.1 p.2 i := by
  have hlt : i / 8 < 2 ^ 22 := by omega
  have hnat : (i / 8).toUInt64.toNat = i / 8 := UInt64.toNat_ofNat_of_lt' (Nat.lt_trans hlt (by decide))
  refine ⟨((i / 8).toUInt64, i % 8), ⟨by rwa [hnat], isPosition_iff.mpr ⟨Nat.mod_lt i (by decide), ?_⟩⟩, ?_⟩
  · rw [hnat, Nat.mod_eq_of_lt hlt, Nat.div_add_mod]
  · rintro ⟨v, j⟩ ⟨hv, hp⟩
    obtain ⟨hj, rfl⟩ := isPosition_iff.mp hp
    rw [Nat.mod_eq_of_lt hv] at hnat ⊢
    refine Prod.ext (UInt64.toNat_inj.mp ?_) ?_
    · rw [hnat]
      omega
    · dsimp only
      omega

/-- Every register value selects a line: eight words of the memory, all in one block. Words are what the blocks hold, in
order, and any words are those of exactly one block. The lines that the values below `2 ^ 22` select, laid end to end,
are the memory, so that each word lies in one of them, at one position, and every other value selects one of these. -/
theorem lines_tile_memory (h : c.blocks.size = cacheBlocks) :
    (∀ v : UInt64, ∃ line, c.mixLine v = .ok line ∧ line.toList.length = 8 ∧
      (∀ j < 8, ∃ w, line.toList[j]? = some w ∧ c.word (8 * (v.toNat % 2 ^ 22) + j) = .ok w) ∧
      line.toList = (c.words.drop (8 * (v.toNat % 2 ^ 22))).take 8 ∧
      ∃ b start, c.blocks[v.toNat % 2 ^ 22 / 16]? = some b ∧ start + 8 ≤ blockWords ∧
        line.toList = (b.words.drop start).take 8) ∧
    c.words.length = 2 ^ 25 ∧ (∀ i w, c.word i = .ok w ↔ c.words[i]? = some w) ∧
    (∀ bytes, (Block.ofBytes bytes).words = (List.range blockWords).map fun i => word64At bytes (8 * i)) ∧
    (∀ ws : List UInt64, ws.length = blockWords → ∃! b : Block, b.words = ws) ∧
    (∃ lines : List Line, (List.range (2 ^ 22)).map (fun n => c.mixLine n.toUInt64) = lines.map .ok ∧
      lines.flatMap Line.toList = c.words) ∧
    (∀ i < 2 ^ 25, ∃! p : UInt64 × ℕ, p.1.toNat < 2 ^ 22 ∧ IsPosition p.1 p.2 i) ∧
    ∀ v w : UInt64, v.toNat % 2 ^ 22 = w.toNat % 2 ^ 22 → c.mixLine v = c.mixLine w := by
  refine ⟨fun v => ?_, length_words h, fun i w => word_eq_ok_iff, fun bytes => Block.words_ofFn _,
    fun ws hws => existsUnique_block hws, exists_lines h, fun i hi => existsUnique_isPosition hi,
    fun v w hvw => c.mixLine_congr hvw⟩
  obtain ⟨b, start, line, hb, -, hend, hline, hblock⟩ := mixLine_spec h v
  obtain ⟨line', hline', hwords⟩ := exists_mixLine h v
  cases hline.symm.trans hline'
  exact ⟨line, hline, rfl, fun j hj => ⟨_, line.getElem?_toList hj, word_of_toList_eq hwords hj⟩, hwords, b, start, hb,
    hend, hblock⟩

/-- In the memory whose word `i` is `i`, the greatest register value selects the last line. -/
theorem greatest_value_selects_last_line :
    counting.mixLine 0xFFFFFFFFFFFFFFFF =
        .ok ⟨33554424, 33554425, 33554426, 33554427, 33554428, 33554429, 33554430, 33554431⟩ ∧
      counting.mixLine 0xFFFFFFFFFFFFFFFF = counting.mixLine 0x3FFFFF ∧
      ∃! p : UInt64 × ℕ, p.1.toNat < 2 ^ 22 ∧ IsPosition p.1 p.2 33554431 := by
  obtain ⟨hlines, -, -, -, -, -, hcover, hcongr⟩ := lines_tile_memory size_blocks_counting
  obtain ⟨line, hline, -, hwords, -⟩ := hlines 0xFFFFFFFFFFFFFFFF
  have hget (r : Reg) : line.get r = (33554424 + r.index).toUInt64 := by
    obtain ⟨w, hw, hword⟩ := hwords r.index r.index_lt
    rw [line.getElem?_toList r.index_lt, Reg.ofIndex_index, Option.some_inj] at hw
    have hr := r.index_lt
    have hlast : 8 * ((0xFFFFFFFFFFFFFFFF : UInt64).toNat % 2 ^ 22) = 33554424 := by decide
    rw [hlast, word_counting (by omega)] at hword
    exact hw.trans (Except.ok.inj hword).symm
  have hlast : (0xFFFFFFFFFFFFFFFF : UInt64).toNat % 2 ^ 22 = (0x3FFFFF : UInt64).toNat % 2 ^ 22 := by decide
  have hline' : line = ⟨33554424, 33554425, 33554426, 33554427, 33554428, 33554429, 33554430, 33554431⟩ := by
    ext r
    rw [hget]
    cases r <;> rfl
  exact ⟨hline.trans (congrArg Except.ok hline'), hcongr _ _ hlast, hcover 33554431 (by decide)⟩

end Cache

end RandomX
