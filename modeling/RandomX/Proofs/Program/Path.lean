import Mathlib.Algebra.BigOperators.Group.Finset.Basic
import Mathlib.Algebra.Order.BigOperators.Group.Finset
import RandomX.Proofs.Program.Step
import RandomX.Program.Compile

/-!
# Paths

A path lists the states before each of its steps, with no limit on their number. Counting how often it visits an
instruction bounds its length, and a path out of the program is what running with enough steps follows.
-/
namespace RandomX.Program

open Outcome

/-- The states through which one state steps to another, the last one left out. -/
inductive Path (code : Code) (masks : LaneMasks) : Core → List Core → Core → Prop where
  | refl (c : Core) : Path code masks c [] c
  | step {c d e : Core} {cs : List Core} (hc : c.counter < programSize) (hs : step code masks c = .ok d)
      (h : Path code masks d cs e) : Path code masks c (c :: cs) e

variable {code : Code} {masks : LaneMasks} {c d e : Core} {cs ds : List Core}

namespace Path

theorem single (hc : c.counter < programSize) (hs : Program.step code masks c = .ok d) : Path code masks c [c] d :=
  .step hc hs (.refl d)

theorem trans (h : Path code masks c cs d) (k : Path code masks d ds e) : Path code masks c (cs ++ ds) e := by
  induction h with
  | refl => exact k
  | step hc hs _ ih => exact .step hc hs (ih k)

theorem counter_lt (h : Path code masks c cs d) : ∀ x ∈ cs, x.counter < programSize := by
  induction h with
  | refl => simp
  | step hc _ _ ih => simpa using ⟨hc, ih⟩

theorem run_eq {n : Nat} (h : Path code masks c cs e) (he : programSize ≤ e.counter) (hn : cs.length ≤ n) :
    run code masks n c = .ok e := by
  induction h generalizing n with
  | refl c => cases n <;> simp only [run, if_pos he]
  | step hc hs _ ih =>
      cases n with
      | zero => simp at hn
      | succ n => rw [run, if_neg (Nat.not_le.mpr hc), hs, ok_bind, ih he (by simpa using hn)]

end Path

/-- What every step carries on holds at every state of a path, after as many steps as lead there. -/
theorem Path.forall_of_step {P : Nat → Core → Prop} {n limit : Nat} (h : Path code masks c cs e)
    (hn : n + cs.length ≤ limit)
    (hstep : ∀ n c d, n < limit → P n c → Program.step code masks c = .ok d → P (n + 1) d) (h0 : P n c) :
    ∀ x ∈ cs ++ [e], ∃ k ≤ limit, P k x := by
  induction h generalizing n with
  | refl c =>
      intro x hx
      obtain rfl := List.mem_singleton.mp hx
      exact ⟨n, hn, h0⟩
  | step _ hs _ ih =>
      rw [List.length_cons] at hn
      rw [List.cons_append, List.forall_mem_cons]
      exact ⟨⟨n, by omega, h0⟩, ih (by omega) (hstep n _ _ (by omega) h0 hs)⟩

/-- The states before each of at most `n` steps. -/
def states (code : Code) (masks : LaneMasks) : (n : Nat) → Core → List Core
  | 0, _ => []
  | n + 1, c =>
    if programSize ≤ c.counter then [] else c :: collect (step code masks c) fun d => states code masks n d

/-! ## Visits -/

/-- How often the instruction at an index is run. -/
def visits (cs : List Core) (i : Nat) : Nat :=
  (cs.map (·.counter)).count i

@[simp] theorem visits_nil (i : Nat) : visits [] i = 0 :=
  rfl

@[simp] theorem visits_append (cs ds : List Core) (i : Nat) : visits (cs ++ ds) i = visits cs i + visits ds i := by
  simp [visits]

theorem visits_cons (c : Core) (cs : List Core) (i : Nat) :
    visits (c :: cs) i = (if i = c.counter then 1 else 0) + visits cs i := by
  rw [visits, List.map_cons, List.count_cons, Nat.add_comm]
  simp only [beq_iff_eq, @eq_comm _ c.counter, visits]

/-- The next instruction is a branch, and it is taken. -/
def jumps (code : Code) (c : Core) : Bool :=
  match code[c.counter]? with
  | some (.branch b imm mask _) => (c.reg.r.get b + imm) &&& mask == 0
  | _ => false

/-- How often the branch at an index is taken. -/
def takes (code : Code) (cs : List Core) (i : Nat) : Nat :=
  visits (cs.filter (jumps code)) i

@[simp] theorem takes_nil (i : Nat) : takes code [] i = 0 :=
  rfl

@[simp] theorem takes_append (cs ds : List Core) (i : Nat) :
    takes code (cs ++ ds) i = takes code cs i + takes code ds i := by
  simp [takes]

theorem takes_cons (c : Core) (cs : List Core) (i : Nat) :
    takes code (c :: cs) i = (if jumps code c = true ∧ i = c.counter then 1 else 0) + takes code cs i := by
  rw [takes, List.filter_cons]
  by_cases h : jumps code c = true
  · simp [h, visits_cons, takes]
  · simp [h, takes]

theorem takes_le_visits (code : Code) (cs : List Core) (i : Nat) : takes code cs i ≤ visits cs i :=
  (List.filter_sublist.map _).count_le i

theorem length_le_of_visits {k : Nat} (h : ∀ x ∈ cs, x.counter < programSize)
    (hv : ∀ i < programSize, visits cs i ≤ k) : cs.length ≤ programSize * k := by
  have hsum := Multiset.sum_count_eq_card (s := Finset.range programSize)
    (m := (cs.map (·.counter) : Multiset Nat)) (by simpa using h)
  rw [Multiset.coe_card, List.length_map] at hsum
  rw [← hsum]
  have := Finset.sum_le_card_nsmul (Finset.range programSize) (fun i => visits cs i) k
    (fun i hi => hv i (Finset.mem_range.mp hi))
  simpa [visits] using this

end RandomX.Program
