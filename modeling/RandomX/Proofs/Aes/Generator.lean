import Mathlib.Data.List.GetD
import Mathlib.Logic.Function.Iterate
import RandomX.Proofs.Aes.Lanes
import RandomX.Scratchpad

/-!
# Generators and hash

What a generator writes is a sequence of blocks, each of them a permutation of its seed. The hash takes blocks in, and
a change to one of them always shows in the result.
-/
namespace RandomX.Aes

/-! ## Blocks -/

/-- The sixty-four bytes of a string from a multiple of sixty-four on. -/
def block (data : ByteArray) (k : ℕ) : Vector UInt8 64 :=
  Vector.ofFn fun i => byteAt data (64 * k + i)

variable {out x y : ByteArray} {i k n : ℕ}

theorem block_eq_iff {v : Vector UInt8 64} :
    block x k = v ↔ ∀ (i : ℕ) (hi : i < 64), byteAt x (64 * k + i) = v[i] := by
  constructor
  · rintro rfl i hi
    simp [block]
  · intro h
    refine Vector.ext fun i hi => ?_
    simpa [block] using h i hi

theorem ofByteArray_eq (data : ByteArray) (k : ℕ) : Lanes.ofByteArray data (64 * k) = .ofVector (block data k) := by
  refine Lanes.ofBytes_congr fun i hi => ?_
  simp [block, hi]

theorem byteAt_eq_getD (data : ByteArray) (i : ℕ) : byteAt data i = data.data.toList.getD i 0 := by
  rw [byteAt]
  split
  · exact (List.getD_eq_getElem ..).symm
  · exact (List.getD_eq_default _ _ (Nat.not_lt.mp ‹_›)).symm

theorem toList_pushWord32 (out : ByteArray) (w : UInt32) :
    (pushWord32 out w).data.toList = out.data.toList ++ [byte32 w 0, byte32 w 8, byte32 w 16, byte32 w 24] := by
  simp [pushWord32]

theorem toList_push (out : ByteArray) (l : Lanes) :
    (l.push out).data.toList = out.data.toList ++ List.ofFn l.byte := by
  simp only [Lanes.push, State.push, toList_pushWord32, List.append_assoc, List.cons_append, List.nil_append,
    List.ofFn_succ, List.ofFn_zero, List.append_cancel_left_eq, List.cons.injEq, and_true]
  and_intros <;> rfl

theorem byteAt_push_of_lt (l : Lanes) (h : i < out.size) : byteAt (l.push out) i = byteAt out i := by
  rw [byteAt_eq_getD, byteAt_eq_getD, toList_push, List.getD_append _ _ _ _ h]

theorem byteAt_push (out : ByteArray) (l : Lanes) (i : Fin 64) : byteAt (l.push out) (out.size + i) = l.byte i := by
  have h : out.data.toList.length ≤ out.size + i := Nat.le_add_right ..
  rw [byteAt_eq_getD, toList_push, List.getD_append_right _ _ _ _ h]
  simp [-List.ofFn_succ]

theorem block_push_of_lt (l : Lanes) (h : 64 * k + 64 ≤ out.size) : block (l.push out) k = block out k := by
  refine block_eq_iff.mpr fun i hi => ?_
  rw [byteAt_push_of_lt l (by omega)]
  simp [block]

theorem block_push (l : Lanes) (h : out.size = 64 * k) : block (l.push out) k = l.toVector := by
  refine block_eq_iff.mpr fun i hi => ?_
  have hbyte := byteAt_push out l ⟨i, hi⟩
  rw [← h, hbyte]
  simp [Lanes.toVector]

/-! ## Generators -/

variable {step : Lanes → Lanes}

/-- What a number of steps makes of a seed. -/
def advance (step : Lanes → Lanes) (n : ℕ) (seed : Vector UInt8 64) : Vector UInt8 64 :=
  (step^[n] (.ofVector seed)).toVector

theorem advance_bijective (h : Function.Bijective step) (n : ℕ) : Function.Bijective (advance step n) :=
  Lanes.toVector_bijective.comp <| (h.iterate n).comp Lanes.ofVector_bijective

theorem generate_snd (n : ℕ) (l : Lanes) (out : ByteArray) : (generate step n l out).2 = step^[n] l := by
  induction n generalizing l out with
  | zero => rfl
  | succ n ih => exact ih ..

theorem block_generate_of_lt (l : Lanes) (h : 64 * k + 64 ≤ out.size) :
    block (generate step n l out).1 k = block out k := by
  induction n generalizing l out with
  | zero => rfl
  | succ n ih => rw [generate, ih _ (by rw [size_push]; omega), block_push_of_lt _ h]

/-- Behind what was there come the lanes after one step, two steps and so on. -/
theorem block_generate {m : ℕ} (l : Lanes) (h : out.size = 64 * m) (hk : k < n) :
    block (generate step n l out).1 (m + k) = (step^[k + 1] l).toVector := by
  induction n generalizing m k l out with
  | zero => cases hk
  | succ n ih =>
      cases k with
      | zero =>
          rw [generate, block_generate_of_lt _ (by rw [size_push]; omega), block_push _ (by omega), zero_add,
            Function.iterate_one]
      | succ k =>
          have hm : m + (k + 1) = m + 1 + k := by omega
          rw [generate, hm, ih _ (by rw [size_push]; omega) (Nat.lt_of_succ_lt_succ hk), ← Function.iterate_succ_apply]

/-- What the generator of a step writes in `n` bytes. -/
structure IsAdvanced (step : Lanes → Lanes) (seed : Vector UInt8 64) (n : ℕ) (out : ByteArray) : Prop where
  size_eq : out.size = n
  block_eq : ∀ k < n / 64, block out k = advance step (k + 1) seed

theorem generate_isAdvanced (step : Lanes → Lanes) (seed : Vector UInt8 64) (hn : n % 64 = 0) :
    IsAdvanced step seed n (generate step (n / 64) (.ofVector seed) (.emptyWithCapacity n)).1 where
  size_eq := by
    have hempty : (ByteArray.emptyWithCapacity n).size = 0 := rfl
    rw [size_generate, hempty]
    omega
  block_eq k hk := by
    have hempty : (ByteArray.emptyWithCapacity n).size = 64 * 0 := rfl
    have h : block (generate step (n / 64) (.ofVector seed) (.emptyWithCapacity n)).1 (0 + k) = _ :=
      block_generate _ hempty hk
    simpa [advance] using h

theorem IsAdvanced.block_ne {seed seed' : Vector UInt8 64} (hx : IsAdvanced step seed n x)
    (hy : IsAdvanced step seed' n y) (hstep : Function.Bijective step) (hne : seed ≠ seed') (hk : k < n / 64) :
    block x k ≠ block y k := by
  rw [hx.block_eq k hk, hy.block_eq k hk]
  exact (advance_bijective hstep _).injective.ne hne

theorem fill1_spec (seed : Vector UInt8 64) (hn : n % 64 = 0) :
    ∃ out, fill1 seed n = .ok (out, advance step1 (n / 64) seed) ∧ IsAdvanced step1 seed n out :=
  ⟨_, (if_pos hn).trans (by rw [advance, ← generate_snd]), generate_isAdvanced step1 seed hn⟩

theorem fill4_spec (seed : Vector UInt8 64) (hn : n % 64 = 0) :
    ∃ out, fill4 seed n = .ok out ∧ IsAdvanced step4 seed n out :=
  ⟨_, if_pos hn, generate_isAdvanced step4 seed hn⟩

theorem scratchpad_isAdvanced (seed : Vector UInt8 64) :
    IsAdvanced step1 seed scratchpadBytes (Scratchpad.fill seed).1.bytes := by
  have hdvd : scratchpadBytes % 64 = 0 := by decide
  -- A variable in place of what the generator yields, which would otherwise be run.
  have hmk (p : ByteArray × Lanes) (hp : p.1.size = scratchpadBytes) : (Scratchpad.mk p.1 hp).bytes = p.1 := rfl
  rw [Scratchpad.fill, hmk, Scratchpad.filling]
  exact generate_isAdvanced step1 seed hdvd

/-- Both generators write a permutation of the seed into every block, and the one with a single round for each block
leaves another one behind. Different seeds thus differ in every block of the scratchpad and of a program. -/
theorem every_block_determines_seed :
    (∀ k, Function.Bijective (advance step1 k) ∧ Function.Bijective (advance step4 k)) ∧
      (∀ seed n, n % 64 = 0 →
        (∃ out, fill1 seed n = .ok (out, advance step1 (n / 64) seed) ∧ out.size = n ∧
          ∀ k < n / 64, block out k = advance step1 (k + 1) seed) ∧
        ∃ out, fill4 seed n = .ok out ∧ out.size = n ∧ ∀ k < n / 64, block out k = advance step4 (k + 1) seed) ∧
      ∀ seed seed', seed ≠ seed' →
        (∀ k < scratchpadBytes / 64,
          block (Scratchpad.fill seed).1.bytes k ≠ block (Scratchpad.fill seed').1.bytes k) ∧
        ∃ b b', fill4 seed programBufferBytes = .ok b ∧ fill4 seed' programBufferBytes = .ok b' ∧
          ∀ k < programBufferBytes / 64, block b k ≠ block b' k := by
  refine ⟨fun k => ⟨advance_bijective step1_bijective k, advance_bijective step4_bijective k⟩, fun seed n hn => ?_,
    fun seed seed' hne => ⟨fun k hk => ?_, ?_⟩⟩
  · obtain ⟨out, hout, h⟩ := fill1_spec seed hn
    obtain ⟨out', hout', h'⟩ := fill4_spec seed hn
    exact ⟨⟨out, hout, h.size_eq, h.block_eq⟩, out', hout', h'.size_eq, h'.block_eq⟩
  · exact (scratchpad_isAdvanced seed).block_ne (scratchpad_isAdvanced seed') step1_bijective hne hk
  · obtain ⟨b, hb, h⟩ := fill4_spec (n := programBufferBytes) seed rfl
    obtain ⟨b', hb', h'⟩ := fill4_spec (n := programBufferBytes) seed' rfl
    exact ⟨b, b', hb, hb', fun k hk => h.block_ne h' step4_bijective hne hk⟩

theorem seeds_of_zeros_and_ones_never_meet :
    (∃ out, fill1 (.replicate 64 0) 64 = .ok (out, advance step1 1 (.replicate 64 0)) ∧ out.size = 64 ∧
        ∀ k < 1, block out k = advance step1 (k + 1) (.replicate 64 0)) ∧
      ∀ k < scratchpadBytes / 64,
        block (Scratchpad.fill (.replicate 64 0)).1.bytes k ≠ block (Scratchpad.fill (.replicate 64 1)).1.bytes k := by
  obtain ⟨-, hfill, hblocks⟩ := every_block_determines_seed
  have hne : Vector.replicate 64 (0 : UInt8) ≠ .replicate 64 1 := by simp [← Vector.toArray_inj]
  exact ⟨(hfill (.replicate 64 0) 64 rfl).1, (hblocks _ _ hne).1⟩

/-! ## Hash -/

theorem absorb_succ (l : Lanes) (hx : x.size % 64 = 0) : absorb x (n + 1) l =
    absorb x n (l.encryptFirst (.ofVector (block x (x.size / 64 - (n + 1))))) := by
  have hstart : x.size - 64 * (n + 1) = 64 * (x.size / 64 - (n + 1)) := by omega
  rw [absorb, hstart, ofByteArray_eq]

theorem absorb_bijective (data : ByteArray) (n : ℕ) : Function.Bijective (absorb data n) := by
  induction n with
  | zero => exact Function.bijective_id
  | succ n ih => exact ih.comp (Lanes.encryptFirst_bijective _)

section

variable (hsize : x.size = y.size) (hx : x.size % 64 = 0)

include hsize hx

theorem absorb_congr (l : Lanes) (hn : n ≤ x.size / 64)
    (h : ∀ k < x.size / 64, x.size / 64 - n ≤ k → block x k = block y k) : absorb x n l = absorb y n l := by
  induction n generalizing l with
  | zero => rfl
  | succ n ih =>
      rw [absorb_succ l hx, absorb_succ l (hsize ▸ hx), ← hsize, h _ (by omega) le_rfl]
      exact ih _ (by omega) fun k hk hle => h k hk (by omega)

/-- Once a changed block has come in, what follows keeps the lanes apart. -/
theorem absorb_ne (l : Lanes) (hn : n ≤ x.size / 64) (hk : k < x.size / 64) (hkn : x.size / 64 - n ≤ k)
    (hne : block x k ≠ block y k) (h : ∀ j < x.size / 64, j ≠ k → block x j = block y j) :
    absorb x n l ≠ absorb y n l := by
  induction n generalizing l with
  | zero => omega
  | succ n ih =>
      rw [absorb_succ l hx, absorb_succ l (hsize ▸ hx), ← hsize]
      by_cases heq : x.size / 64 - (n + 1) = k
      · rw [heq, ← absorb_congr hsize hx _ (by omega) fun j hj hle => h j hj (by omega)]
        refine (absorb_bijective x n).injective.ne fun hkey => hne ?_
        exact Lanes.ofVector_bijective.injective (Lanes.encryptFirst_injective_key l hkey)
      · rw [h _ (by omega) heq]
        exact ih _ (by omega) (by omega)

/-- A change to one block shows in the hash. -/
theorem hash_detects_changed_block (hk : k < x.size / 64) (hne : block x k ≠ block y k)
    (h : ∀ j < x.size / 64, j ≠ k → block x j = block y j) : ∃ u v, hash x = .ok u ∧ hash y = .ok v ∧ u ≠ v := by
  refine ⟨hashBlocks x, hashBlocks y, if_pos hx, if_pos (hsize ▸ hx), ?_⟩
  rw [hashBlocks, hashBlocks, ← hsize]
  refine (Lanes.toVector_bijective.comp finish_bijective).injective.ne ?_
  exact absorb_ne hsize hx _ le_rfl hk (by omega) hne h

end

theorem hash_detects_change_of_first_block : ∃ u v, hash ⟨Array.replicate 128 0⟩ = .ok u ∧
    hash ⟨Array.replicate 64 1 ++ Array.replicate 64 0⟩ = .ok v ∧ u ≠ v := by
  have hx : ByteArray.size ⟨Array.replicate 128 0⟩ = 128 := Array.size_replicate
  have hy : ByteArray.size ⟨Array.replicate 64 1 ++ Array.replicate 64 0⟩ = 128 := by simp [ByteArray.size]
  refine hash_detects_changed_block (k := 0) (hx.trans hy.symm) (by rw [hx]) (by rw [hx]; decide) (fun h => ?_)
    fun j hj hne => ?_
  · have hbyte := block_eq_iff.mp h 0 (by decide)
    simp [block, byteAt, hx, hy, ByteArray.getElem_eq_getElem_data] at hbyte
  · obtain rfl : j = 1 := by omega
    refine block_eq_iff.mpr fun i _ => ?_
    simp [block, byteAt, hx, hy, ByteArray.getElem_eq_getElem_data]

end RandomX.Aes
