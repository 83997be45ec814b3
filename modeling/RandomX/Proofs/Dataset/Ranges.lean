import RandomX.Proofs.Dataset.Build

/-!
# Ranges of builds

Builds add up. Whatever ranges are asked for, in whatever order, those that leave the dataset are refused before
anything is stored, and an item is that of the cache if any of the others has it.
-/
namespace RandomX.Dataset

open Outcome

variable {d : Dataset} {c : Cache} {flags : Flags} {start count : UInt64} {i : ℕ}

/-! ## Checks -/

/-- The range starts at an item and, as an interval of naturals, has no number outside the dataset. -/
def IsInside (start count : UInt64) : Prop :=
  start.toNat < datasetItems ∧ ∀ j, start.toNat ≤ j → j < start.toNat + count.toNat → j < datasetItems

theorem isInside_iff :
    IsInside start count ↔ start.toNat < datasetItems ∧ start.toNat + count.toNat ≤ datasetItems := by
  refine and_congr_right fun hstart => ⟨fun hinside => Nat.le_of_not_lt fun hlt => ?_, fun hle j _ hj => by omega⟩
  -- A longer range has the number behind the last item.
  exact Nat.lt_irrefl _ (hinside datasetItems (Nat.le_of_lt hstart) hlt)

/-- The check of a range comes to an answer, without a sum that overflows. -/
theorem exists_admits_iff (start count : UInt64) :
    ∃ inside, admits start count = .ok inside ∧ (inside = true ↔ IsInside start count) :=
  ⟨_, admits_eq start count, decide_eq_true_iff.trans isInside_iff.symm⟩

/-! ## Calls -/

/-- What a call to build a range returns, and the dataset after it. -/
def answer (d : Dataset) (range : UInt64 × UInt64) : Except Error Unit × Dataset :=
  match d.build range.1 range.2 with
  | .ok d' => (.ok (), d')
  | .error e => (.error e, d)

/-- The dataset after calls that are made one after the other. -/
def after (d : Dataset) : List (UInt64 × UInt64) → Dataset
  | [] => d
  | range :: ranges => (d.answer range).2.after ranges

/-- The ranges of the calls that were accepted. -/
def accepted (d : Dataset) : List (UInt64 × UInt64) → List (UInt64 × UInt64)
  | [] => []
  | range :: ranges =>
    match d.build range.1 range.2 with
    | .ok d' => range :: d'.accepted ranges
    | .error _ => d.accepted ranges

theorem builds_after (d : Dataset) (calls : List (UInt64 × UInt64)) :
    d.Builds (d.accepted calls).reverse (d.after calls) := by
  induction calls generalizing d with
  | nil => exact .nil
  | cons range calls ih =>
      rw [accepted, after, answer]
      split
      · rename_i d' hb
        rw [List.reverse_cons]
        exact (Builds.nil.accepted hb).trans (ih d')
      · rename_i e hb
        have hrest := (Builds.nil.refused hb).trans (ih d)
        rwa [List.append_nil] at hrest

theorem covers_reverse {ranges : List (UInt64 × UInt64)} : Covers ranges.reverse i ↔ Covers ranges i := by
  simp only [Covers, List.mem_reverse]

/-- A refused call stores nothing. -/
theorem answer_of_not_isInside (h : ¬ IsInside start count) :
    d.answer (start, count) = (.error (.rangeExceedsDataset start.toNat count.toNat datasetItems), d) := by
  rw [isInside_iff] at h
  rw [answer, build_eq, if_neg h]

theorem answer_of_isInside (hitems : ∀ j < datasetItems, ∃ line, d.cache.item j.toUInt64 = .ok line)
    (h : IsInside start count) : (d.answer (start, count)).1 = .ok () := by
  obtain ⟨hstart, hcount⟩ := isInside_iff.mp h
  obtain ⟨d', hb⟩ := build_ok hitems hstart hcount
  rw [answer, hb]

/-- Any calls build a dataset over a sound cache by parts. Each is refused if and only if its range does not lie inside
the dataset, without a sum that overflows, and then leaves the dataset alone. After them an item is that of the cache if
one of the accepted ranges has it, and zero otherwise. -/
theorem builds_add_up (hd : create flags c = .ok d) (hc : c.IsSound) (hi : c.isInitialised = true)
    (calls : List (UInt64 × UInt64)) :
    (∀ start count,
      (∃ inside, admits start count = .ok inside ∧ (inside = true ↔ IsInside start count)) ∧
      (IsInside start count → ((d.after calls).answer (start, count)).1 = .ok ()) ∧
      (¬ IsInside start count →
        (d.after calls).answer (start, count) =
          (.error (.rangeExceedsDataset start.toNat count.toNat datasetItems), d.after calls))) ∧
    ∀ i : UInt64, i.toNat < datasetItems →
      (Covers (d.accepted calls) i.toNat →
        ∃ line, c.item i = .ok line ∧ (d.after calls).item i = .ok line) ∧
      (¬ Covers (d.accepted calls) i.toNat → (d.after calls).item i = .ok .zero) := by
  have hbuilds := builds_after d calls
  have hcache : d.cache = c := cache_of_create hd
  have hitems : ∀ j < datasetItems, ∃ line, (d.after calls).cache.item j.toUInt64 = .ok line := by
    rw [hbuilds.cache_eq, hcache]
    exact items_ok hc hi
  refine ⟨fun start count => ⟨exists_admits_iff start count, answer_of_isInside hitems, answer_of_not_isInside⟩, ?_⟩
  intro i hlt
  have hitem : (d.after calls).item i = .ok ((d.after calls).stored i.toNat) := if_pos hlt
  refine ⟨fun hcovers => ?_, fun hcovers => ?_⟩
  · have hline := hbuilds.item_eq (covers_reverse.mpr hcovers)
    rw [hcache, show i.toNat.toUInt64 = i from UInt64.ofNat_toNat] at hline
    exact ⟨_, hline, hitem⟩
  · rw [hitem, hbuilds.stored_of_not_covers fun h => hcovers (covers_reverse.mp h), stored_of_create hd]

/-- Two ranges that overlap, one whose sum would wrap around between them, and one item that is built twice. -/
theorem overlapping_builds_add_up :
    let c : Cache := ⟨Array.replicate cacheBlocks .zero, [], some .empty⟩
    let d : Dataset := ⟨c, ∅⟩
    let calls := [(0, 3), (5, 0xFFFFFFFFFFFFFFFF), (1, 4), (2, 1)]
    ((d.after calls).answer (5, 0xFFFFFFFFFFFFFFFF)).1 =
        .error (.rangeExceedsDataset 5 0xFFFFFFFFFFFFFFFF datasetItems) ∧
      (∃ line, c.item 2 = .ok line ∧ (d.after calls).item 2 = .ok line) ∧
      (∃ line, c.item 4 = .ok line ∧ (d.after calls).item 4 = .ok line) ∧
      (d.after calls).item 5 = .ok .zero := by
  intro c d calls
  have hcreate : create ⟨false, false, true, false, false⟩ c = .ok d := rfl
  have hsound : c.IsSound := ⟨Array.size_replicate, by simp [c]⟩
  have haccepted : d.accepted calls = [(0, 3), (1, 4), (2, 1)] := rfl
  obtain ⟨hanswers, hitems⟩ := builds_add_up hcreate hsound rfl calls
  have hcovers (i : ℕ) : Covers (d.accepted calls) i ↔ i < 3 ∨ (1 ≤ i ∧ i < 5) ∨ (2 ≤ i ∧ i < 3) := by
    simp [haccepted, Covers]
  refine ⟨?_, (hitems 2 (by decide)).1 ?_, (hitems 4 (by decide)).1 ?_, (hitems 5 (by decide)).2 ?_⟩
  · rw [(hanswers _ _).2.2 fun h => absurd (isInside_iff.mp h) (by decide)]
    rfl
  all_goals
    rw [hcovers]
    decide

end RandomX.Dataset
