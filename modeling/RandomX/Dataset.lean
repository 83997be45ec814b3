import RandomX.Cache
import Std.Data.HashMap

/-!
# Dataset

The items of a cache, materialised range by range, and the view that a machine has of them. Only built items are stored;
all others are zero. Building by several workers at once is left out; each of them would build one range of a partition.
-/
namespace RandomX

structure Dataset where
  cache : Cache
  /-- The items that were built. -/
  built : Std.HashMap Nat Line

namespace Dataset

/-- A dataset without built items. It is made for full mode alone. -/
def create (flags : Flags) (cache : Cache) : Except Error Dataset :=
  if !flags.fullMem then .error (.modeMismatch "dataset")
  else if flags.largePages then .error (.unsupported "large pages")
  else .ok ⟨cache, ∅⟩

/-- The stored item, zero if it was not built. -/
def stored (d : Dataset) (i : Nat) : Line :=
  d.built.getD i .zero

def item (d : Dataset) (i : UInt64) : Except Error Line :=
  if i.toNat < datasetItems then .ok (d.stored i.toNat) else .error .outOfBounds

def buildFrom : (n : Nat) → (i : Nat) → Dataset → Except Error Dataset
  | 0, _, d => .ok d
  | n + 1, i, d => do
    let line ← d.cache.item i.toUInt64
    buildFrom n (i + 1) { d with built := d.built.insert i line }

/-- The sum of two words, which has to be a word. -/
def addChecked (a b : UInt64) : Except Error UInt64 :=
  if a.toNat + b.toNat < UInt64.size then .ok (a + b) else .error .overflow

/-- Whether the range lies inside the dataset. The sum is taken only after both parts are known to be small. -/
def admits (start count : UInt64) : Except Error Bool := do
  let total := datasetItems.toUInt64
  if start < total && count ≤ total then return (← addChecked start count) ≤ total
  else return false

def build (d : Dataset) (start count : UInt64) : Except Error Dataset := do
  if ← admits start count then d.buildFrom count.toNat start.toNat
  else .error (.rangeExceedsDataset start.toNat count.toNat datasetItems)

def describe (_ : Dataset) : String :=
  s!"Dataset \x7b items: {datasetItems} \x7d"

end Dataset

/-! ## Views -/

/-- A dataset as a machine sees it: computed on demand, or looked up. -/
inductive DatasetView where
  | light (cache : Cache)
  | full (dataset : Dataset)

namespace DatasetView

def isFull : DatasetView → Bool
  | light _ => false
  | full _ => true

def item (view : DatasetView) (i : UInt64) : Except Error Line :=
  match view with
  | light cache => cache.item i
  | full dataset => dataset.item i

/-- Adds the item that holds an address to a line. -/
def read (view : DatasetView) (address : UInt64) (line : Line) : Except Error Line := do
  return line.xor (← view.item (address / 64))

end DatasetView

end RandomX
