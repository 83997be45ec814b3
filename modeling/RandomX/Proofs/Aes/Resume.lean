import RandomX.Machine.Basic
import RandomX.Proofs.Aes.Generator

/-!
# Resumed generation

What a generator writes comes in order: a longer output begins with the shorter one, and the state that is left behind,
which is the last block written, yields the rest.
-/
namespace RandomX.Aes

variable {step : Lanes → Lanes} {out : ByteArray} {n : ℕ}

/-! ## Parts of an output -/

theorem toList_injective {x y : ByteArray} (h : x.data.toList = y.data.toList) : x = y :=
  ByteArray.ext (Array.toList_inj.mp h)

theorem push_empty (l : Lanes) : l.push .empty = bytesOfVector l.toVector := by
  refine toList_injective ?_
  rw [toList_push, bytesOfVector, Lanes.toVector]
  simp [-List.ofFn_succ]

theorem push_eq_append (out : ByteArray) (l : Lanes) : l.push out = out ++ bytesOfVector l.toVector := by
  refine toList_injective ?_
  rw [toList_push, ← push_empty, ByteArray.data_append, Array.toList_append, toList_push]
  rfl

/-- The bytes that a number of steps writes. -/
def stream (step : Lanes → Lanes) : ℕ → Lanes → ByteArray
  | 0, _ => .empty
  | n + 1, l => bytesOfVector (step l).toVector ++ stream step n (step l)

theorem generate_fst (n : ℕ) (l : Lanes) (out : ByteArray) : (generate step n l out).1 = out ++ stream step n l := by
  induction n generalizing l out with
  | zero => exact ByteArray.append_empty.symm
  | succ n ih => rw [generate, ih, push_eq_append, ByteArray.append_assoc, stream]

theorem stream_add (m n : ℕ) (l : Lanes) : stream step (m + n) l = stream step m l ++ stream step n (step^[m] l) := by
  induction m generalizing l with
  | zero => rw [Nat.zero_add, stream, ByteArray.empty_append, Function.iterate_zero_apply]
  | succ m ih =>
      rw [Nat.succ_add, stream, ih, stream, ByteArray.append_assoc, Function.iterate_succ_apply]

theorem size_bytesOfVector (v : Vector UInt8 64) : (bytesOfVector v).size = 64 :=
  v.size_toArray

theorem size_stream (n : ℕ) (l : Lanes) : (stream step n l).size = 64 * n := by
  induction n generalizing l with
  | zero => rfl
  | succ n ih =>
      rw [stream, ByteArray.size_append, size_bytesOfVector, ih]
      ring

theorem extract_stream_succ (n : ℕ) (l : Lanes) :
    (stream step (n + 1) l).extract (64 * n) (64 * (n + 1)) = bytesOfVector (step^[n + 1] l).toVector := by
  rw [stream_add, stream, stream, ByteArray.append_empty, ← Function.iterate_succ_apply' step]
  exact ByteArray.extract_append_eq_right (size_stream n l).symm (by rw [size_stream, size_bytesOfVector, Nat.mul_succ])

/-! ## Outcomes -/

/-- What filling `n` bytes yields, and the state after it. A refusal leaves the state that it finds. -/
def resume (state : Vector UInt8 64) (n : ℕ) : Except Error ByteArray × Vector UInt8 64 :=
  match fill1 state n with
  | .ok (out, state) => (.ok out, state)
  | .error e => (.error e, state)

theorem resume_of_whole (state : Vector UInt8 64) (n : ℕ) :
    resume state (64 * n) = (.ok (stream step1 n (.ofVector state)), advance step1 n state) := by
  have hempty : ByteArray.emptyWithCapacity (64 * n) = .empty := rfl
  rw [resume, fill1, if_pos (Nat.mul_mod_right 64 n), Nat.mul_div_cancel_left n (by decide)]
  simp only
  rw [generate_fst, generate_snd, hempty, ByteArray.empty_append, advance]

theorem resume_of_partial (state : Vector UInt8 64) (h : n % 64 ≠ 0) : resume state n = (.error .partialOutput, state) := by
  rw [resume, fill1, if_neg h]

theorem fill4_of_whole (state : Vector UInt8 64) (n : ℕ) :
    fill4 state (64 * n) = .ok (stream step4 n (.ofVector state)) := by
  have hempty : ByteArray.emptyWithCapacity (64 * n) = .empty := rfl
  rw [fill4, if_pos (Nat.mul_mod_right 64 n), Nat.mul_div_cancel_left n (by decide), generate_fst, hempty,
    ByteArray.empty_append]

theorem ofVector_advance (n : ℕ) (state : Vector UInt8 64) :
    Lanes.ofVector (advance step n state) = step^[n] (.ofVector state) := by
  rw [advance, Lanes.ofVector_toVector]

theorem resume_add (state : Vector UInt8 64) (m n : ℕ) : resume state (64 * m + 64 * n) =
    (.ok (stream step1 m (.ofVector state) ++ stream step1 n (.ofVector (advance step1 m state))),
      advance step1 n (advance step1 m state)) := by
  rw [← Nat.mul_add, resume_of_whole, stream_add, ofVector_advance, advance, advance, ofVector_advance, Nat.add_comm,
    Function.iterate_add_apply]

/-- The state that is left behind is the last block. -/
theorem extract_of_resume {state state' : Vector UInt8 64} (hn : n % 64 = 0) (hpos : 0 < n)
    (h : resume state n = (.ok out, state')) : out.extract (n - 64) n = bytesOfVector state' := by
  obtain ⟨k, rfl⟩ : ∃ k, n = 64 * (k + 1) := ⟨n / 64 - 1, by omega⟩
  obtain ⟨hout, hstate⟩ := Prod.mk.inj ((resume_of_whole state (k + 1)).symm.trans h)
  rw [← Except.ok.inj hout, ← hstate]
  exact extract_stream_succ k _

/-- The scratchpad holds what the generator writes, whatever the machine was before. -/
theorem resume_scratchpadBytes (m : Machine) (seed : Vector UInt8 64) :
    resume seed scratchpadBytes = (.ok (m.fillPad seed).2.pad.bytes, (m.fillPad seed).1) := by
  have hdvd : scratchpadBytes % 64 = 0 := by decide
  rw [resume, fill1, if_pos hdvd, Machine.fillPad, Scratchpad.fill]
  simp only
  rw [Scratchpad.filling]

/-! ## Resumption -/

/-- Filling in two parts is filling at once, the state left behind is the last block, the generator with four rounds
writes the beginning of a longer output first, and a length that is not whole blocks changes nothing. -/
theorem generation_is_resumable :
    (∀ state n m, n % 64 = 0 → m % 64 = 0 → ∃ a b, (resume state n).1 = .ok a ∧ a.size = n ∧
      (resume (resume state n).2 m).1 = .ok b ∧ b.size = m ∧
      resume state (n + m) = (.ok (a ++ b), (resume (resume state n).2 m).2)) ∧
    (∀ state, resume state 0 = (.ok .empty, state)) ∧
    (∀ state n, n % 64 = 0 → 0 < n → ∃ a, (resume state n).1 = .ok a ∧
      a.extract (n - 64) n = bytesOfVector (resume state n).2) ∧
    (∀ (m : Machine) seed,
      resume seed scratchpadBytes = (.ok (m.fillPad seed).2.pad.bytes, (m.fillPad seed).1) ∧
      (m.fillPad seed).2.pad.bytes.extract (scratchpadBytes - 64) scratchpadBytes = bytesOfVector (m.fillPad seed).1) ∧
    (∀ state n m, n % 64 = 0 → m % 64 = 0 → ∃ a b, fill4 state n = .ok a ∧ a.size = n ∧ b.size = m ∧
      fill4 state (n + m) = .ok (a ++ b)) ∧
    ∀ state n, n % 64 ≠ 0 → resume state n = (.error .partialOutput, state) ∧ fill4 state n = .error .partialOutput := by
  have hblocks {n : ℕ} (h : n % 64 = 0) : ∃ k, n = 64 * k := ⟨n / 64, by omega⟩
  refine ⟨fun state n m hn hm => ?_, fun state => ?_, fun state n hn hpos => ?_, fun m seed => ?_,
    fun state n m hn hm => ?_, fun state n hn => ⟨resume_of_partial state hn, if_neg hn⟩⟩
  · obtain ⟨j, rfl⟩ := hblocks hn
    obtain ⟨k, rfl⟩ := hblocks hm
    rw [resume_add, resume_of_whole, resume_of_whole]
    exact ⟨_, _, rfl, size_stream .., rfl, size_stream .., rfl⟩
  · refine (resume_of_whole state 0).trans ?_
    rw [stream, advance, Function.iterate_zero_apply, Lanes.toVector_ofVector]
  · obtain ⟨k, rfl⟩ := hblocks hn
    rw [resume_of_whole]
    exact ⟨_, rfl, extract_of_resume hn hpos (resume_of_whole state k)⟩
  · have heq := resume_scratchpadBytes m seed
    exact ⟨heq, extract_of_resume (by decide) (by decide) heq⟩
  · obtain ⟨j, rfl⟩ := hblocks hn
    obtain ⟨k, rfl⟩ := hblocks hm
    rw [← Nat.mul_add, fill4_of_whole, fill4_of_whole, stream_add]
    exact ⟨_, _, rfl, size_stream .., size_stream .., rfl⟩

theorem two_blocks_are_one_after_the_other : ∃ a b, (resume (.replicate 64 1) 64).1 = .ok a ∧
    (resume (resume (.replicate 64 1) 64).2 64).1 = .ok b ∧ (resume (.replicate 64 1) 128).1 = .ok (a ++ b) ∧
    resume (.replicate 64 1) 65 = (.error .partialOutput, .replicate 64 1) := by
  obtain ⟨hparts, _, _, _, _, hpartial⟩ := generation_is_resumable
  obtain ⟨a, b, ha, _, hb, _, h⟩ := hparts (.replicate 64 1) 64 64 rfl rfl
  exact ⟨a, b, ha, hb, congrArg Prod.fst h, (hpartial _ 65 (by decide)).1⟩

end RandomX.Aes
