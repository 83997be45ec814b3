import RandomX.Proofs.Dataset.View

/-!
# Building

A build stores the items of its range and leaves the others alone. What a sequence of builds has covered is what a
cache answers for, and a dataset that is covered throughout cannot be told from its cache.
-/
namespace RandomX.Dataset

open Outcome

variable {d d' : Dataset} {start count : UInt64} {n i j : Nat}

/-! ## Ranges -/

/-- The sum is not taken where it could overflow. -/
theorem admits_eq (start count : UInt64) :
    admits start count =
      .ok (decide (start.toNat < datasetItems ∧ start.toNat + count.toNat ≤ datasetItems)) := by
  have htotal : datasetItems.toUInt64.toNat = datasetItems := by decide
  have hsmall : datasetItems + datasetItems < UInt64.size := by decide
  simp only [admits, Bool.and_eq_true, decide_eq_true_eq, UInt64.lt_iff_toNat_lt, UInt64.le_iff_toNat_le, htotal]
  split
  · rename_i h
    have hsum : start.toNat + count.toNat < UInt64.size := by omega
    simp only [addChecked, if_pos hsum, ok_bind, pure_eq_ok, UInt64.toNat_add, Nat.mod_eq_of_lt hsum, h.1, true_and]
  · rename_i h
    rw [pure_eq_ok, decide_eq_false fun hin => h ⟨hin.1, by omega⟩]

theorem toNat_index (hj : j < datasetItems) : j.toUInt64.toNat = j :=
  Nat.mod_eq_of_lt (Nat.lt_trans hj (by decide))

/-! ## One build -/

section Creation

variable {flags : Flags} {c : Cache}

theorem eq_of_create (h : create flags c = .ok d) : d = ⟨c, ∅⟩ := by
  rw [create] at h
  split at h
  · cases h
  · split at h
    · cases h
    · cases h
      rfl

theorem cache_of_create (h : create flags c = .ok d) : d.cache = c := by
  rw [eq_of_create h]

theorem stored_of_create (h : create flags c = .ok d) (i : Nat) : d.stored i = .zero := by
  rw [eq_of_create h]
  exact Std.HashMap.getD_empty

end Creation

theorem stored_insert (d : Dataset) (i j : Nat) (line : Line) :
    stored { d with built := d.built.insert i line } j = if i = j then line else d.stored j := by
  simp only [stored, Std.HashMap.getD_insert, beq_iff_eq]

theorem cache_of_buildFrom (h : d.buildFrom n i = .ok d') : d'.cache = d.cache := by
  induction n generalizing d i with
  | zero => cases h; rfl
  | succ n ih =>
      obtain ⟨line, _, h⟩ := bind_eq_ok.mp h
      exact (ih h :)

theorem stored_of_buildFrom_of_not_mem (h : d.buildFrom n i = .ok d') (hj : j < i ∨ i + n ≤ j) :
    d'.stored j = d.stored j := by
  induction n generalizing d i with
  | zero => cases h; rfl
  | succ n ih =>
      obtain ⟨line, _, h⟩ := bind_eq_ok.mp h
      rw [ih h (by omega), stored_insert, if_neg (by omega)]

theorem item_of_buildFrom (h : d.buildFrom n i = .ok d') (hij : i ≤ j) (hj : j < i + n) :
    d.cache.item j.toUInt64 = .ok (d'.stored j) := by
  induction n generalizing d i with
  | zero => omega
  | succ n ih =>
      obtain ⟨line, hline, h⟩ := bind_eq_ok.mp h
      rcases Nat.lt_or_eq_of_le hij with hlt | rfl
      · exact (ih h hlt (by omega) :)
      · rw [stored_of_buildFrom_of_not_mem h (.inl (Nat.lt_succ_self i)), stored_insert, if_pos rfl, hline]

theorem buildFrom_ok (h : ∀ j < i + n, ∃ line, d.cache.item j.toUInt64 = .ok line) :
    ∃ d', d.buildFrom n i = .ok d' := by
  induction n generalizing d i with
  | zero => exact ⟨d, rfl⟩
  | succ n ih =>
      obtain ⟨line, hline⟩ := h i (by omega)
      rw [buildFrom, hline, ok_bind]
      exact ih fun j hj => h j (by omega)

theorem build_eq (d : Dataset) (start count : UInt64) :
    d.build start count =
      if start.toNat < datasetItems ∧ start.toNat + count.toNat ≤ datasetItems then
        d.buildFrom count.toNat start.toNat
      else .error (.rangeExceedsDataset start.toNat count.toNat datasetItems) := by
  simp only [build, admits_eq, ok_bind, decide_eq_true_eq]

theorem buildFrom_of_build (h : d.build start count = .ok d') : d.buildFrom count.toNat start.toNat = .ok d' := by
  rw [build_eq] at h
  split at h
  · exact h
  · cases h

/-- A cache that answers for every item of a dataset lets every range inside it be built. -/
theorem build_ok (h : ∀ j < datasetItems, ∃ line, d.cache.item j.toUInt64 = .ok line)
    (hs : start.toNat < datasetItems) (hc : start.toNat + count.toNat ≤ datasetItems) :
    ∃ d', d.build start count = .ok d' := by
  rw [build_eq, if_pos ⟨hs, hc⟩]
  exact buildFrom_ok fun j hj => h j (Nat.lt_of_lt_of_le hj hc)

theorem items_ok {c : Cache} (hc : c.IsSound) (hi : c.isInitialised = true) :
    ∀ j < datasetItems, ∃ line, c.item j.toUInt64 = .ok line := by
  intro j hj
  refine hc.item_ok_of_lt hi ?_
  rwa [toNat_index hj]

/-! ## Sequences of builds -/

/-- A sequence of builds. A call that fails changes nothing; the list has the ranges of the others, the last one
first. -/
inductive Builds (d : Dataset) : List (UInt64 × UInt64) → Dataset → Prop where
  | nil : Builds d [] d
  | accepted {ranges : List (UInt64 × UInt64)} {d₁ d₂ : Dataset} {start count : UInt64} (h : Builds d ranges d₁)
      (hb : d₁.build start count = .ok d₂) : Builds d ((start, count) :: ranges) d₂
  | refused {ranges : List (UInt64 × UInt64)} {d₁ : Dataset} {start count : UInt64} {e : Error}
      (h : Builds d ranges d₁) (hb : d₁.build start count = .error e) : Builds d ranges d₁

/-- One of the ranges has the item. -/
def Covers (ranges : List (UInt64 × UInt64)) (i : Nat) : Prop :=
  ∃ r ∈ ranges, r.1.toNat ≤ i ∧ i < r.1.toNat + r.2.toNat

variable {ranges : List (UInt64 × UInt64)}

theorem Builds.cache_eq (h : d.Builds ranges d') : d'.cache = d.cache := by
  induction h with
  | nil => rfl
  | accepted _ hb ih => exact (cache_of_buildFrom (buildFrom_of_build hb)).trans ih
  | refused _ _ ih => exact ih

/-- A covered item is what the cache answers, whatever was built over it. -/
theorem Builds.item_eq (h : d.Builds ranges d') (hc : Covers ranges i) :
    d.cache.item i.toUInt64 = .ok (d'.stored i) := by
  induction h with
  | nil =>
      obtain ⟨r, hr, _⟩ := hc
      cases hr
  | @accepted ranges d₁ d₂ start count h hb ih =>
      have hb := buildFrom_of_build hb
      by_cases hi : start.toNat ≤ i ∧ i < start.toNat + count.toNat
      · rw [← h.cache_eq, item_of_buildFrom hb hi.1 hi.2]
      · rw [stored_of_buildFrom_of_not_mem hb (by omega)]
        obtain ⟨r, hr, hle, hlt⟩ := hc
        rcases List.mem_cons.mp hr with rfl | hr
        · exact absurd ⟨hle, hlt⟩ hi
        · exact ih ⟨r, hr, hle, hlt⟩
  | refused _ _ ih => exact ih hc

/-- An item that is not covered stays as it was. -/
theorem Builds.stored_of_not_covers (h : d.Builds ranges d') (hc : ¬ Covers ranges i) : d'.stored i = d.stored i := by
  induction h with
  | nil => rfl
  | @accepted ranges d₁ d₂ start count _ hb ih =>
      have hout : ¬ (start.toNat ≤ i ∧ i < start.toNat + count.toNat) :=
        fun hin => hc ⟨(start, count), List.mem_cons_self, hin⟩
      rw [stored_of_buildFrom_of_not_mem (buildFrom_of_build hb) (by omega)]
      exact ih fun ⟨r, hr, hin⟩ => hc ⟨r, List.mem_cons_of_mem _ hr, hin⟩
  | refused _ _ ih => exact ih hc

theorem Builds.trans {later : List (UInt64 × UInt64)} {d₁ : Dataset} (h : d.Builds ranges d₁)
    (hlater : d₁.Builds later d') : d.Builds (later ++ ranges) d' := by
  induction hlater with
  | nil => exact h
  | accepted _ hb ih => exact ih.accepted hb
  | refused _ hb ih => exact ih.refused hb

theorem Builds.agree (h : d.Builds ranges d') (hc : ∀ i < datasetItems, Covers ranges i) :
    (DatasetView.full d').Agree (.light d.cache) := by
  intro i hi
  have hitem := h.item_eq (hc i.toNat hi)
  rw [show i.toNat.toUInt64 = i from UInt64.ofNat_toNat] at hitem
  rw [DatasetView.item, DatasetView.item, hitem, item, if_pos hi]

end RandomX.Dataset
