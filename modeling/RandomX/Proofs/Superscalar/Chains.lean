import Mathlib.Data.List.Chain
import Mathlib.Order.Bounds.Basic
import RandomX.Superscalar.Builder

/-!
# Dependency chains

An instruction depends on the most recent writers of the registers that it reads. The address register of a program is
the lowest of those whose last writer ends a chain of dependencies that is the longest of all.
-/
namespace RandomX.Superscalar

variable {program : Array Instruction} {i : Instruction} {r : Reg} {k l n : ℕ} {chain : List ℕ}

/-! ## Dependencies -/

def Instruction.Reads (i : Instruction) (r : Reg) : Prop :=
  r = i.dst ∨ r = i.src

/-- The instruction at index `k` is the most recent writer of a register before index `n`. -/
structure IsWriterBefore (program : Array Instruction) (n k : ℕ) (r : Reg) : Prop where
  lt : k < n
  writes : ∃ i, program[k]? = some i ∧ i.dst = r
  last : ∀ l i, k < l → l < n → program[l]? = some i → i.dst ≠ r

/-- The instruction at index `l` reads a register whose most recent writer before it is the one at index `k`. -/
def Feeds (program : Array Instruction) (k l : ℕ) : Prop :=
  ∃ i r, program[l]? = some i ∧ i.Reads r ∧ IsWriterBefore program l k r

theorem Feeds.lt (h : Feeds program k l) : k < l := by
  obtain ⟨_, _, _, _, hwriter⟩ := h
  exact hwriter.lt

/-- Indices, the last one first, of instructions of which each later one reads what the one before wrote. The last one
is the last writer of the register. A register that is never written has only the empty chain. -/
structure IsChainTo (program : Array Instruction) (r : Reg) (chain : List ℕ) : Prop where
  feeds : chain.IsChain fun l k => Feeds program k l
  ends : ∀ k ∈ chain.head?, IsWriterBefore program program.size k r

/-- The lengths of the chains that the last writer of a register ends. -/
def chainsTo (program : Array Instruction) (r : Reg) : Set ℕ :=
  {n | ∃ chain, IsChainTo program r chain ∧ chain.length = n}

/-! ## Appended instructions -/

theorem getElem?_push_of_lt (h : l < program.size) : (program.push i)[l]? = program[l]? := by
  rw [Array.getElem?_push, if_neg (Nat.ne_of_lt h)]

theorem isWriterBefore_push (h : n ≤ program.size) :
    IsWriterBefore (program.push i) n k r ↔ IsWriterBefore program n k r := by
  have hsame {m : ℕ} (hm : m < n) : (program.push i)[m]? = program[m]? := getElem?_push_of_lt (Nat.lt_of_lt_of_le hm h)
  constructor
  · rintro ⟨hlt, hwrites, hlast⟩
    exact ⟨hlt, hsame hlt ▸ hwrites, fun l j hkl hln hj => hlast l j hkl hln ((hsame hln).trans hj)⟩
  · rintro ⟨hlt, hwrites, hlast⟩
    exact ⟨hlt, (hsame hlt).symm ▸ hwrites, fun l j hkl hln hj => hlast l j hkl hln ((hsame hln).symm.trans hj)⟩

theorem isWriterBefore_push_self :
    IsWriterBefore (program.push i) (program.push i).size k i.dst ↔ k = program.size := by
  rw [Array.size_push]
  constructor
  · rintro ⟨hlt, _, hlast⟩
    by_contra hne
    exact hlast program.size i (by omega) (Nat.lt_succ_self _) Array.getElem?_push_size rfl
  · rintro rfl
    exact ⟨Nat.lt_succ_self _, ⟨i, Array.getElem?_push_size, rfl⟩, fun l _ hkl hln => by omega⟩

theorem isWriterBefore_push_of_ne (h : i.dst ≠ r) :
    IsWriterBefore (program.push i) (program.push i).size k r ↔ IsWriterBefore program program.size k r := by
  rw [Array.size_push, ← isWriterBefore_push (i := i) (Nat.le_refl _)]
  constructor
  · rintro ⟨hlt, ⟨j, hj, rfl⟩, hlast⟩
    refine ⟨Nat.lt_of_le_of_ne (Nat.le_of_lt_succ hlt) ?_, ⟨j, hj, rfl⟩, fun l x hkl hln => hlast l x hkl (by omega)⟩
    rintro rfl
    rw [Array.getElem?_push_size] at hj
    cases hj
    exact h rfl
  · rintro ⟨hlt, hwrites, hlast⟩
    refine ⟨Nat.lt_succ_of_lt hlt, hwrites, fun l x hkl hln hx => ?_⟩
    rcases Nat.lt_succ_iff_lt_or_eq.mp hln with hln | rfl
    · exact hlast l x hkl hln hx
    · rw [Array.getElem?_push_size] at hx
      cases hx
      exact h

theorem feeds_push (h : l < program.size) : Feeds (program.push i) k l ↔ Feeds program k l := by
  simp only [Feeds, getElem?_push_of_lt h, isWriterBefore_push (Nat.le_of_lt h)]

theorem feeds_push_size :
    Feeds (program.push i) k program.size ↔ ∃ r, i.Reads r ∧ IsWriterBefore program program.size k r := by
  simp only [Feeds, Array.getElem?_push_size, Option.some.injEq, isWriterBefore_push (Nat.le_refl _)]
  constructor
  · rintro ⟨_, r, rfl, h⟩
    exact ⟨r, h⟩
  · rintro ⟨r, h⟩
    exact ⟨i, r, rfl, h⟩

/-- Chains of old instructions stay what they are. -/
theorem isChain_push (h : ∀ k ∈ chain.head?, k < program.size) :
    (chain.IsChain fun l k => Feeds (program.push i) k l) ↔ chain.IsChain fun l k => Feeds program k l := by
  induction chain with
  | nil => simp
  | cons l rest ih =>
      have hl : l < program.size := h l rfl
      rw [List.isChain_cons, List.isChain_cons]
      constructor
      · rintro ⟨hhead, hrest⟩
        have hhead (k) (hk : k ∈ rest.head?) : Feeds program k l := (feeds_push hl).mp (hhead k hk)
        exact ⟨hhead, (ih fun k hk => (hhead k hk).lt.trans hl).mp hrest⟩
      · rintro ⟨hhead, hrest⟩
        exact ⟨fun k hk => (feeds_push hl).mpr (hhead k hk), (ih fun k hk => (hhead k hk).lt.trans hl).mpr hrest⟩

theorem isChainTo_push_of_ne (h : i.dst ≠ r) : IsChainTo (program.push i) r chain ↔ IsChainTo program r chain := by
  constructor
  · rintro ⟨hfeeds, hends⟩
    have hends (k) (hk : k ∈ chain.head?) : IsWriterBefore program program.size k r :=
      (isWriterBefore_push_of_ne h).mp (hends k hk)
    exact ⟨(isChain_push fun k hk => (hends k hk).lt).mp hfeeds, hends⟩
  · rintro ⟨hfeeds, hends⟩
    exact ⟨(isChain_push fun k hk => (hends k hk).lt).mpr hfeeds,
      fun k hk => (isWriterBefore_push_of_ne h).mpr (hends k hk)⟩

/-- The new instruction is put after a chain of one of the registers that it reads. -/
theorem isChainTo_push_self :
    IsChainTo (program.push i) i.dst chain ↔
      chain = [] ∨ ∃ rest r, chain = program.size :: rest ∧ i.Reads r ∧ IsChainTo program r rest := by
  cases chain with
  | nil => exact ⟨fun _ => .inl rfl, fun _ => ⟨.nil, nofun⟩⟩
  | cons l rest =>
      constructor
      · rintro ⟨hfeeds, hends⟩
        obtain rfl := isWriterBefore_push_self.mp (hends l rfl)
        obtain ⟨hhead, hrest⟩ := List.isChain_cons.mp hfeeds
        refine .inr ⟨rest, ?_⟩
        cases rest with
        | nil => exact ⟨i.dst, rfl, .inl rfl, .nil, nofun⟩
        | cons k rest =>
            obtain ⟨r, hr, hk⟩ := feeds_push_size.mp (hhead k rfl)
            have hends : ∀ k' ∈ (k :: rest).head?, IsWriterBefore program program.size k' r := by
              rintro _ ⟨⟩
              exact hk
            exact ⟨r, rfl, hr, (isChain_push fun k' hk' => (hends k' hk').lt).mp hrest, hends⟩
      · rintro (hnil | ⟨rest, r, hchain, hr, hfeeds, hends⟩)
        · cases hnil
        · cases hchain
          refine ⟨List.isChain_cons.mpr ⟨fun k hk => ?_, ?_⟩, ?_⟩
          · exact feeds_push_size.mpr ⟨r, hr, hends k hk⟩
          · exact (isChain_push fun k hk => (hends k hk).lt).mpr hfeeds
          · rintro _ ⟨⟩
            exact isWriterBefore_push_self.mpr rfl

/-! ## Lengths -/

theorem chainsTo_empty (r : Reg) : chainsTo #[] r = {0} := by
  ext n
  constructor
  · rintro ⟨chain, ⟨_, hends⟩, rfl⟩
    cases chain with
    | nil => rfl
    | cons k rest => exact absurd (hends k rfl).lt (Nat.not_lt_zero k)
  · rintro rfl
    exact ⟨[], ⟨.nil, nofun⟩, rfl⟩

theorem chainsTo_push_of_ne (h : i.dst ≠ r) : chainsTo (program.push i) r = chainsTo program r := by
  simp only [chainsTo, isChainTo_push_of_ne h]

theorem mem_chainsTo_push_self :
    n ∈ chainsTo (program.push i) i.dst ↔ n = 0 ∨ ∃ r m, i.Reads r ∧ m ∈ chainsTo program r ∧ n = m + 1 := by
  constructor
  · rintro ⟨chain, hchain, rfl⟩
    rcases isChainTo_push_self.mp hchain with rfl | ⟨rest, r, rfl, hr, hrest⟩
    · exact .inl rfl
    · exact .inr ⟨r, rest.length, hr, ⟨rest, hrest, rfl⟩, rfl⟩
  · rintro (rfl | ⟨r, _, hr, ⟨rest, hrest, rfl⟩, rfl⟩)
    · exact ⟨[], ⟨.nil, nofun⟩, rfl⟩
    · exact ⟨program.size :: rest, isChainTo_push_self.mpr (.inr ⟨rest, r, rfl, hr, hrest⟩), rfl⟩

theorem chainLengths_push :
    chainLengths (program.push i) = (chainLengths program).set i.dst
      (max ((chainLengths program).get i.dst) ((chainLengths program).get i.src) + 1) := by
  rw [chainLengths, Array.foldl_push, ← chainLengths]
  by_cases h : i.dst = i.src
  · simp [h]
  · simp [h, Nat.add_max_add_right]

/-- The length that is kept for a register is that of its longest chain. -/
theorem isGreatest_chainLengths (program : Array Instruction) (r : Reg) :
    IsGreatest (chainsTo program r) ((chainLengths program).get r) := by
  induction hs : program.size generalizing program r with
  | zero =>
      obtain rfl := Array.eq_empty_of_size_eq_zero hs
      rw [chainsTo_empty, chainLengths, Array.foldl_empty, RegMap.get_constant]
      exact isGreatest_singleton
  | succ n ih =>
      obtain ⟨before, i, rfl⟩ := Array.eq_push_of_size_ne_zero (by omega : program.size ≠ 0)
      rw [Array.size_push, Nat.succ_inj] at hs
      have ih (r : Reg) := ih before r hs
      rw [chainLengths_push]
      by_cases hr : r = i.dst
      · subst hr
        rw [RegMap.get_set_self]
        constructor
        · -- One of the two chains that the instruction can be put after is as long as the longer one.
          refine mem_chainsTo_push_self.mpr (.inr ?_)
          rcases Nat.le_total ((chainLengths before).get i.dst) ((chainLengths before).get i.src) with h | h
          · exact ⟨i.src, _, .inr rfl, (ih i.src).1, by rw [Nat.max_eq_right h]⟩
          · exact ⟨i.dst, _, .inl rfl, (ih i.dst).1, by rw [Nat.max_eq_left h]⟩
        · intro m hm
          rcases mem_chainsTo_push_self.mp hm with rfl | ⟨q, k, hq, hk, rfl⟩
          · exact Nat.zero_le _
          · have hle := (ih q).2 hk
            rcases hq with rfl | rfl <;> omega
      · rw [RegMap.get_set_of_ne _ _ _ _ hr, chainsTo_push_of_ne (Ne.symm hr)]
        exact ih r

/-! ## The longest chain -/

/-- The better one of what a scan has found and a register. -/
def longer (lengths : RegMap ℕ) (best : ℕ × Reg) (r : Reg) : ℕ × Reg :=
  if best.1 < lengths.get r then (lengths.get r, r) else best

theorem longestChain_eq (program : Array Instruction) :
    longestChain program = (Reg.all.foldl (longer (chainLengths program)) (0, .r0)).2 :=
  rfl

/-- A register of the given length, and of the given ones those below it have shorter chains. -/
structure IsFirst (lengths : RegMap ℕ) (rs : List Reg) (best : ℕ × Reg) : Prop where
  eq : best.1 = lengths.get best.2
  lt : ∀ r ∈ rs, r.index < best.2.index → lengths.get r < best.1

/-- A scan over ascending registers finds the first with the longest chain, or keeps what was no shorter. -/
theorem foldl_longer (lengths : RegMap ℕ) {rs : List Reg} (hrs : rs.Pairwise fun q r => q.index < r.index)
    {best out : ℕ × Reg} (hout : rs.foldl (longer lengths) best = out) :
    (∀ r ∈ rs, lengths.get r ≤ out.1) ∧ (out = best ∨ best.1 < out.1 ∧ IsFirst lengths rs out) := by
  induction rs generalizing best with
  | nil => exact ⟨nofun, .inl hout.symm⟩
  | cons q rs ih =>
      obtain ⟨hq, hrs⟩ := List.pairwise_cons.mp hrs
      obtain ⟨hle, hfound⟩ := ih hrs hout
      rw [longer] at hfound
      split at hfound
      · rename_i hlt
        rcases hfound with rfl | ⟨hlonger, hfirst⟩
        · refine ⟨?_, .inr ⟨hlt, rfl, ?_⟩⟩
          · simpa using hle
          · intro r hr hrq
            rcases List.mem_cons.mp hr with rfl | hr
            · exact absurd hrq (Nat.lt_irrefl _)
            · exact absurd (hq r hr) (Nat.lt_asymm hrq)
        · refine ⟨?_, .inr ⟨hlt.trans hlonger, hfirst.eq, ?_⟩⟩
          · simpa using ⟨hlonger.le, hle⟩
          · simpa using ⟨fun _ => hlonger, hfirst.lt⟩
      · rename_i hge
        rw [Nat.not_lt] at hge
        rcases hfound with rfl | ⟨hlonger, hfirst⟩
        · exact ⟨by simpa using ⟨hge, hle⟩, .inl rfl⟩
        · have hqlt := Nat.lt_of_le_of_lt hge hlonger
          refine ⟨?_, .inr ⟨hlonger, hfirst.eq, ?_⟩⟩
          · simpa using ⟨hqlt.le, hle⟩
          · simpa using ⟨fun _ => hqlt, hfirst.lt⟩

/-- Every register has a longest chain, and that of the address register is the longest of all, longer than those of
the registers below it. -/
theorem address_register_ends_longest_chain (program : Array Instruction) :
    ∃ longest : Reg → ℕ, (∀ r, IsGreatest (chainsTo program r) (longest r)) ∧
      (∀ r, longest r ≤ longest (longestChain program)) ∧
      ∀ r, r.index < (longestChain program).index → longest r < longest (longestChain program) := by
  refine ⟨(chainLengths program).get, isGreatest_chainLengths program, ?_⟩
  have hrs : Reg.all.Pairwise fun q r => q.index < r.index := by decide
  obtain ⟨hle, hfound⟩ := foldl_longer (chainLengths program) hrs rfl
  rw [longestChain_eq]
  rcases hfound with hkept | ⟨_, hfirst⟩
  · -- No register has a chain.
    rw [hkept] at hle ⊢
    exact ⟨fun r => (hle r r.mem_all).trans (Nat.zero_le _), fun r hr => absurd hr (Nat.not_lt_zero _)⟩
  · rw [← hfirst.eq]
    exact ⟨fun r => hle r r.mem_all, fun r hr => hfirst.lt r r.mem_all hr⟩

/-- Of two chains of the same length the one of the lower register counts. -/
example : longestChain #[⟨.ixorR, .r2, .r1, 0⟩, ⟨.ixorR, .r5, .r2, 0⟩, ⟨.ixorR, .r3, .r2, 0⟩] = .r3 := by
  decide

end RandomX.Superscalar
