import RandomX.Proofs.Machine.Footprint

/-!
# Reachable machines

Every machine that creation, changes of the cache or the dataset, and hashes lead to has a view that answers for all
items of a dataset. Hashing on it cannot fail.
-/
namespace RandomX.Machine

open Outcome

/-- A machine that the operations lead to. Its caches come from creation and keys, its datasets from anywhere. -/
inductive Reachable : Machine → Prop where
  | create {flags : Flags} {cache : Option Cache} {dataset : Option Dataset} {m : Machine}
      (hc : ∀ c ∈ cache, c.Reachable) (h : Machine.create flags cache dataset = .ok m) : Reachable m
  | setCache {m : Machine} {c : Cache} (hm : Reachable m) (hc : c.Reachable) : Reachable (m.setCache c).2
  | setDataset {m : Machine} {d : Dataset} (hm : Reachable m) : Reachable (m.setDataset d).2
  | hash {m m' : Machine} {input : ByteArray} {d : Digest} (hm : Reachable m) (h : m.hash input = .ok (d, m')) :
      Reachable m'

variable {m m' : Machine}

/-! ## The view -/

theorem isValid_of_viewFor {flags : Flags} {cache : Option Cache} {dataset : Option Dataset} {view : DatasetView}
    (hc : ∀ c ∈ cache, c.Reachable) (h : viewFor flags cache dataset = .ok view) : view.IsValid := by
  unfold viewFor at h
  split at h
  · split at h
    · cases h
      exact .full _
    · cases h
    · cases h
  · cases cache with
    | none => cases dataset <;> cases h
    | some c =>
        simp only at h
        split at h
        · cases h
          exact .light (hc c rfl) ‹_›
        · cases h

theorem isValid_setCache (h : m.view.IsValid) {c : Cache} (hc : c.Reachable) : (m.setCache c).2.view.IsValid := by
  rw [setCache]
  split
  · exact h
  · split
    · exact h
    · rename_i hi
      exact .light hc (by simpa using hi)

theorem isValid_setDataset (h : m.view.IsValid) (d : Dataset) : (m.setDataset d).2.view.IsValid := by
  rw [setDataset]
  split
  · exact h
  · exact .full d

theorem Reachable.isValid (h : m.Reachable) : m.view.IsValid := by
  induction h with
  | create hc h =>
      obtain ⟨_, _, h⟩ := bind_eq_ok.mp h
      obtain ⟨view, hview, h⟩ := bind_eq_ok.mp h
      cases h
      exact isValid_of_viewFor hc hview
  | setCache _ hc ih => exact isValid_setCache ih hc
  | setDataset _ ih => exact isValid_setDataset ih _
  | hash _ h ih => rwa [view_of_hash h]

/-! ## Safety -/

/-- Hashing never fails. All accesses of its rounds are in range, those to the scratchpad at aligned words, those to the
dataset at its items, one of them in each iteration. And these accesses are all that the rounds have to do with memory:
they change nothing else, and nothing else could change the registers to which they lead. -/
theorem hash_is_safe (h : m.Reachable) (input : ByteArray) :
    (∃ d m', m.hash input = .ok (d, m')) ∧ (∀ x ∈ m.accesses input, x.IsInRange) ∧
      ((m.accesses input).filterMap Access.item?).length = programCount * programIterations ∧
      ∃ k : Machine, m.hash input = .ok (Blake2b.hash256 (k.setRounding .nearest).finalBytes, k.setRounding .nearest) ∧
        Footprint (m.accesses input)
          (fun view pad => runChain programCount (firstSeed input) { m.prepare input with view := view, pad := pad })
          (fun view pad => { k with view := view, pad := pad }) m.view (m.prepare input).pad k.pad := by
  refine ⟨hash_ok h.isValid input, m.accesses_isInRange input, m.length_items_accesses h.isValid input, ?_⟩
  obtain ⟨k, hk⟩ := runChain_ok (m := m.prepare input) h.isValid programCount (firstSeed input)
  refine ⟨k, ?_, footprint_runChain hk fun _ hx => hx⟩
  rw [hash_eq, hk, ok_bind, pure_eq_ok]

/-- A new machine over a dataset without built items, and the empty input. -/
theorem new_hash_is_safe :
    let m := Machine.mk ⟨false, false, true, false, false⟩ (.full ⟨⟨#[], [], none⟩, ∅⟩) (.blank .nearest) .blank
    (∃ d m', m.hash .empty = .ok (d, m')) ∧ (∀ x ∈ m.accesses .empty, x.IsInRange) ∧
      ((m.accesses .empty).filterMap Access.item?).length = 16384 := by
  intro m
  have h : Machine.create ⟨false, false, true, false, false⟩ none (some ⟨⟨#[], [], none⟩, ∅⟩) = .ok m := rfl
  obtain ⟨hok, hrange, hitems, -⟩ := hash_is_safe (.create (by simp) h) .empty
  exact ⟨hok, hrange, hitems⟩

end RandomX.Machine
