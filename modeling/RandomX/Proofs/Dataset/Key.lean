import RandomX.Proofs.Dataset.Cache

/-!
# Keys of a cache

A cache takes keys one after the other, and each time the fill of its memory may fail. While it holds a key, its memory
and its programs are those of that key alone; after a failure it holds none, answers for no item, and is filled anew by
whatever key comes next.
-/
namespace RandomX.Cache

open Outcome Argon2

variable {c fresh : Cache} {key : ByteArray} {memory : Array Block} {flags : Flags}

/-- How a cache has its memory filled. -/
abbrev Fill :=
  ByteArray → Array Block → Except Error (Array Block)

/-- The fill, or one that may fail where the fill does not. -/
def MayFail (fill : Fill) : Prop :=
  ∀ key memory blocks, fill key memory = .ok blocks → Argon2.fill key memory = .ok blocks

theorem mayFail_fill : MayFail Argon2.fill :=
  fun _ _ _ h => h

theorem mayFail_error (e : Error) : MayFail fun _ _ => .error e :=
  nofun

/-! ## Histories -/

/-- A cache after any sequence of keys, each taken or refused because the fill failed. A fill that fails may leave the
memory in any state. -/
inductive History : Cache → Prop where
  | create {flags : Flags} {c : Cache} (h : Cache.create flags = .ok c) : History c
  | init {c : Cache} (h : History c) {fill : Fill} (hf : MayFail fill) (key : ByteArray) :
      History (c.initWith fill key).2
  | spoil {c : Cache} (h : History c) (hk : c.key = none) {memory : Array Block} (hs : memory.size = c.blocks.size) :
      History { c with blocks := memory }

/-- The zeroed memory, filled with a key. -/
def IsMemoryOf (key : ByteArray) (blocks : Array Block) : Prop :=
  Argon2.fill key (Array.replicate cacheBlocks .zero) = .ok blocks

theorem IsMemoryOf.of_fill (hs : memory.size = cacheBlocks) {blocks : Array Block}
    (h : Argon2.fill key memory = .ok blocks) : IsMemoryOf key blocks :=
  (fill_congr key Array.size_replicate hs).trans h

theorem IsMemoryOf.size_eq {blocks : Array Block} (h : IsMemoryOf key blocks) : blocks.size = cacheBlocks :=
  (size_of_fill h).trans Array.size_replicate

/-- The memory is complete, and it and the programs are those of the key, if there is one. -/
structure IsPure (c : Cache) : Prop where
  size_blocks : c.blocks.size = cacheBlocks
  memory : ∀ key, c.key = some key → IsMemoryOf key c.blocks
  programs : ∀ key, c.key = some key → programsOf key = .ok c.programs

theorem IsPure.create (h : Cache.create flags = .ok c) : c.IsPure := by
  obtain ⟨hb, _, hk⟩ := create_eq h
  exact ⟨by simp only [hb, Array.size_replicate], by simp [hk], by simp [hk]⟩

theorem key_eq_of_holds (h : c.holds key = true) : c.key = some key := by
  rw [holds] at h
  split at h
  · rename_i held hk
    have hdata : held.data = key.data := by simpa using h
    rw [hk, ByteArray.ext hdata]
  · cases h

/-- All that becomes of a cache when a key is offered: it has the key, the fill fails, the programs do not come to an
end, or it takes the key. -/
theorem initWith_cases (fill : Fill) (key : ByteArray) (c : Cache) :
    (c.key = some key ∧ c.initWith fill key = (.ok (), c)) ∨
      (∃ e, fill key c.blocks = .error e ∧ c.initWith fill key = (.error e, { c with key := none })) ∨
      (∃ blocks e, fill key c.blocks = .ok blocks ∧ programsOf key = .error e ∧
        c.initWith fill key = (.error e, ⟨blocks, [], none⟩)) ∨
      ∃ blocks programs, fill key c.blocks = .ok blocks ∧ programsOf key = .ok programs ∧
        c.initWith fill key = (.ok (), ⟨blocks, programs, some key⟩) := by
  rw [initWith]
  by_cases hc : c.holds key = true
  · rw [if_pos hc]
    exact .inl ⟨key_eq_of_holds hc, rfl⟩
  · rw [if_neg hc]
    cases hf : fill key c.blocks with
    | error e => exact .inr (.inl ⟨e, rfl, rfl⟩)
    | ok blocks =>
        cases hp : programsOf key with
        | error e => exact .inr (.inr (.inl ⟨blocks, e, rfl, rfl, rfl⟩))
        | ok programs => exact .inr (.inr (.inr ⟨blocks, programs, rfl, rfl, rfl⟩))

theorem IsPure.init (h : c.IsPure) {fill : Fill} (hf : MayFail fill) (key : ByteArray) :
    (c.initWith fill key).2.IsPure := by
  rcases initWith_cases fill key c with ⟨_, heq⟩ | ⟨e, _, heq⟩ | ⟨blocks, e, hfill, _, heq⟩ |
    ⟨blocks, programs, hfill, hp, heq⟩
  · rw [heq]
    exact h
  · rw [heq]
    exact ⟨h.size_blocks, nofun, nofun⟩
  · rw [heq]
    exact ⟨(IsMemoryOf.of_fill h.size_blocks (hf _ _ _ hfill)).size_eq, nofun, nofun⟩
  · rw [heq]
    have hmemory := IsMemoryOf.of_fill h.size_blocks (hf _ _ _ hfill)
    refine ⟨hmemory.size_eq, ?_, ?_⟩
    · rintro _ ⟨⟩
      exact hmemory
    · rintro _ ⟨⟩
      exact hp

theorem History.isPure (h : c.History) : c.IsPure := by
  induction h with
  | create h => exact .create h
  | init _ hf key ih => exact ih.init hf key
  | spoil _ hk hs ih => exact ⟨hs.trans ih.size_blocks, by simp [hk], by simp [hk]⟩

/-! ## Outcomes -/

/-- A key is refused only for a draw without end. -/
theorem History.init_spec (h : c.History) (key : ByteArray) :
    ((c.init key).1 = .error .drawLimit ∧ ¬ DrawsEnd (Generator.ofSeed key 0 : Blake2Generator)) ∨
      (c.init key).1 = .ok () ∧ (c.init key).2.key = some key := by
  rw [Cache.init]
  rcases initWith_cases Argon2.fill key c with ⟨hk, heq⟩ | ⟨e, hfill, _⟩ | ⟨blocks, e, _, hp, heq⟩ |
    ⟨blocks, programs, _, _, heq⟩
  · rw [heq]
    exact .inr ⟨rfl, hk⟩
  · obtain ⟨blocks, hblocks⟩ := Argon2.fill_ok key (Nat.le_of_eq h.isPure.size_blocks.symm)
    rw [hblocks] at hfill
    cases hfill
  · rw [heq]
    rcases generatePrograms_spec cacheAccesses (Generator.ofSeed key 0 : Blake2Generator) with
      ⟨he, hends⟩ | ⟨_, hok, _⟩
    · rw [programsOf, he] at hp
      cases hp
      exact .inl ⟨rfl, hends⟩
    · rw [programsOf, hok] at hp
      cases hp
  · rw [heq]
    exact .inr ⟨rfl, rfl⟩

/-! ## Fresh caches -/

theorem holds_eq_false (hk : c.key = none) (key : ByteArray) : c.holds key = false := by
  rw [holds, hk]

/-- Without a key nothing spares the fill. -/
theorem initWith_of_fill_ok (hk : c.key = none) {fill : Fill} {blocks : Array Block}
    (hf : fill key c.blocks = .ok blocks) :
    c.initWith fill key =
      match programsOf key with
      | .error e => (.error e, ⟨blocks, [], none⟩)
      | .ok programs => (.ok (), ⟨blocks, programs, some key⟩) := by
  cases hp : programsOf key with
  | error e => simp only [initWith, holds_eq_false hk, Bool.false_eq_true, if_false, hf, hp]
  | ok programs => simp only [initWith, holds_eq_false hk, Bool.false_eq_true, if_false, hf, hp]

theorem initWith_of_fill_error (hk : c.key = none) {fill : Fill} {e : Error} (hf : fill key c.blocks = .error e) :
    c.initWith fill key = (.error e, c) := by
  rw [initWith, holds_eq_false hk, if_neg Bool.false_ne_true, hf, ← hk]

/-- The cache is that of a key, as if it had never held another. -/
structure IsOf (key : ByteArray) (c : Cache) : Prop where
  memory : IsMemoryOf key c.blocks
  programs : generatePrograms cacheAccesses (Generator.ofSeed key 0 : Blake2Generator) = .ok c.programs
  length_programs : c.programs.length = cacheAccesses
  /-- So every word, line and item is that of a fresh cache as well. -/
  eq_fresh : ∀ flags fresh, Cache.create flags = .ok fresh → (.ok (), c) = fresh.init key

/-- The cache answers for no item, and whatever key comes next is filled in. -/
structure IsVacant (c : Cache) : Prop where
  key_eq : c.key = none
  item_eq : ∀ number, c.item number = .error .cacheUninitialised
  fill_error : ∀ fill key e, fill key c.blocks = .error e → c.initWith fill key = (.error e, c)
  eq_fresh : ∀ flags fresh, Cache.create flags = .ok fresh → ∀ key, c.init key = fresh.init key

theorem IsPure.isOf (h : c.IsPure) (hk : c.key = some key) : c.IsOf key where
  memory := h.memory key hk
  programs := h.programs key hk
  length_programs := (generatePrograms_ok (h.programs key hk)).1
  eq_fresh flags fresh hfresh := by
    obtain ⟨hzero, _, hnone⟩ := create_eq hfresh
    have hfill : Argon2.fill key fresh.blocks = .ok c.blocks := hzero ▸ h.memory key hk
    rw [Cache.init, initWith_of_fill_ok hnone hfill, h.programs key hk, ← hk]

theorem IsOf.isSound (h : c.IsOf key) : c.IsSound where
  size_blocks := h.memory.size_eq
  hasImmediate := (generatePrograms_ok h.programs).2

theorem IsPure.isVacant (h : c.IsPure) (hk : c.key = none) : c.IsVacant where
  key_eq := hk
  item_eq number := by simp only [item, isInitialised, hk, Option.isSome_none, Bool.not_false, if_true]
  fill_error _ _ _ he := initWith_of_fill_error hk he
  eq_fresh flags fresh hfresh key := by
    obtain ⟨_, _, hnone⟩ := create_eq hfresh
    -- Had the fill failed, each cache would be left with the memory that it had.
    obtain ⟨blocks, hblocks⟩ := fill_ok key (Nat.le_of_eq h.size_blocks.symm)
    have hfill := fill_congr key (IsPure.create hfresh).size_blocks h.size_blocks
    rw [hblocks] at hfill
    rw [Cache.init, Cache.init, initWith_of_fill_ok hk hblocks, initWith_of_fill_ok hnone hfill]

/-- No cache mixes two keys. With a key it is what a fresh cache is after that key alone; after a key that was refused
it is without one, and takes the next as a fresh cache does. -/
theorem cache_never_mixes_keys (h : c.History) :
    (∀ key, c.key = some key → c.IsOf key) ∧ (c.key = none → c.IsVacant) ∧
      ∀ fill, MayFail fill → ∀ key,
        ((c.initWith fill key).1 = .ok () → (c.initWith fill key).2.IsOf key) ∧
          ∀ e, (c.initWith fill key).1 = .error e → (c.initWith fill key).2.IsVacant := by
  have hpure := h.isPure
  refine ⟨fun key hk => hpure.isOf hk, fun hk => hpure.isVacant hk, fun fill hf key => ?_⟩
  have hnext := hpure.init hf key
  rcases initWith_cases fill key c with ⟨hk, heq⟩ | ⟨e, _, heq⟩ | ⟨blocks, e, _, _, heq⟩ |
    ⟨blocks, programs, _, _, heq⟩
  · rw [heq]
    exact ⟨fun _ => hpure.isOf hk, nofun⟩
  · rw [heq] at hnext ⊢
    exact ⟨nofun, fun _ _ => hnext.isVacant rfl⟩
  · rw [heq] at hnext ⊢
    exact ⟨nofun, fun _ _ => hnext.isVacant rfl⟩
  · rw [heq] at hnext ⊢
    exact ⟨fun _ => hnext.isOf rfl, nofun⟩

/-- A new cache, offered the empty key: it is then the cache of that key, unless a draw of its programs goes on for
ever, and it answers for nothing after that or after a fill that fails. -/
theorem new_cache_never_mixes_keys :
    let new : Cache := ⟨Array.replicate cacheBlocks .zero, [], none⟩
    ((new.init .empty).1 = .ok () ∧ (new.init .empty).2.key = some .empty ∧ (new.init .empty).2.IsOf .empty ∨
        (new.init .empty).1 = .error .drawLimit ∧ ¬ DrawsEnd (Generator.ofSeed .empty 0 : Blake2Generator) ∧
          (new.init .empty).2.IsVacant) ∧
      (new.initWith (fun _ _ => .error .memoryTooSmall) .empty).2.IsVacant := by
  intro new
  have hnew : History new := .create (show Cache.create .none = .ok new from rfl)
  have hoffered := (cache_never_mixes_keys hnew).2.2
  refine ⟨?_, (hoffered _ (mayFail_error .memoryTooSmall) .empty).2 .memoryTooSmall rfl⟩
  obtain ⟨htaken, hrefused⟩ := hoffered Argon2.fill mayFail_fill .empty
  rcases hnew.init_spec .empty with ⟨he, hends⟩ | ⟨hok, hk⟩
  · exact .inr ⟨he, hends, hrefused .drawLimit he⟩
  · exact .inl ⟨hok, hk, htaken hok⟩

end RandomX.Cache
