import RandomX.Dataset
import RandomX.Proofs.Dataset.Item

/-!
# Views

What a machine may see: a dataset of any contents, or a cache that holds a key. Either has all items of a dataset.
-/
namespace RandomX.DatasetView

open Outcome

variable {v w : DatasetView} {i address : UInt64}

/-- A view that a machine can be given. -/
inductive IsValid : DatasetView → Prop where
  | light {c : Cache} (h : c.Reachable) (hi : c.isInitialised = true) : IsValid (light c)
  | full (d : Dataset) : IsValid (full d)

theorem IsValid.item_ok (h : v.IsValid) (hi : i.toNat < datasetItems) : ∃ line, v.item i = .ok line := by
  cases h with
  | light hc hk => exact hc.isSound.item_ok_of_lt hk hi
  | full d => exact ⟨_, if_pos hi⟩

/-- The two views have the same items. -/
def Agree (v w : DatasetView) : Prop :=
  ∀ i : UInt64, i.toNat < datasetItems → v.item i = w.item i

theorem Agree.refl (v : DatasetView) : v.Agree v :=
  fun _ _ => rfl

/-! ## Reads -/

theorem IsValid.read_ok (h : v.IsValid) (hi : (address / 64).toNat < datasetItems) (line : Line) :
    ∃ line', v.read address line = .ok line' := by
  obtain ⟨item, hitem⟩ := h.item_ok hi
  exact ⟨_, by rw [read, hitem, ok_bind, pure_eq_ok]⟩

theorem Agree.read_eq (h : v.Agree w) (hi : (address / 64).toNat < datasetItems) (line : Line) :
    v.read address line = w.read address line := by
  rw [read, read, h _ hi]

end RandomX.DatasetView
