import RandomX.Proofs.Machine.Access

/-!
# Footprints

Accesses are the footprint of a computation if it has to do with nothing else: it leaves all other bytes of the memory
alone, and it leads to the same on any memory and any dataset that cannot be told apart by these accesses. The accesses
of a hash are the footprint of its rounds.
-/
namespace RandomX

open Outcome

/-- The words accessed have the same bytes in both memories. -/
def SameBytes (xs : List Access) (q p : Scratchpad) : Prop :=
  ∀ a, .word a ∈ xs → ∀ k < 8, q.byte (a + k) = p.byte (a + k)

/-- The items accessed are the same in both views. -/
def SameItems (xs : List Access) (w v : DatasetView) : Prop :=
  ∀ i : UInt64, .item i.toNat ∈ xs → w.item i = v.item i

/-- A computation on a view and a memory, which on `v` leads from `p` to `p'`. -/
structure Footprint {α : Type} (xs : List Access) (f : DatasetView → Scratchpad → Except Error α)
    (out : DatasetView → Scratchpad → α) (v : DatasetView) (p p' : Scratchpad) : Prop where
  eq : f v p = .ok (out v p')
  frame : ∀ i, (∀ a, .word a ∈ xs → i < a ∨ a + 8 ≤ i) → p'.byte i = p.byte i
  congr : ∀ w q, SameItems xs w v → SameBytes xs q p →
    ∃ q', f w q = .ok (out w q') ∧ SameBytes xs q' p'

variable {α β : Type} {xs : List Access} {v : DatasetView} {p p' p'' : Scratchpad}

namespace Footprint

theorem pure (out : DatasetView → Scratchpad → α) (v : DatasetView) (p : Scratchpad) :
    Footprint xs (fun w q => .ok (out w q)) out v p p :=
  ⟨rfl, fun _ _ => rfl, fun _ q _ hq => ⟨q, rfl, hq⟩⟩

theorem bind {f : DatasetView → Scratchpad → Except Error α} {g : DatasetView → α → Except Error β}
    {out : DatasetView → Scratchpad → α} {out' : DatasetView → Scratchpad → β}
    (hf : Footprint xs f out v p p') (hg : Footprint xs (fun w q => g w (out w q)) out' v p' p'') :
    Footprint xs (fun w q => f w q >>= g w) out' v p p'' where
  eq := by rw [hf.eq, ok_bind, hg.eq]
  frame i hi := (hg.frame i hi).trans (hf.frame i hi)
  congr w q hw hq := by
    obtain ⟨q', hq', hsame⟩ := hf.congr w q hw hq
    obtain ⟨q'', hq'', hsame⟩ := hg.congr w q' hw hsame
    exact ⟨q'', by rw [hq', ok_bind, hq''], hsame⟩

/-- What is only read. -/
theorem read {f : DatasetView → Scratchpad → Except Error α} {g : α → DatasetView → Scratchpad → Except Error β}
    {out : DatasetView → Scratchpad → β} {x : α} (hf : f v p = .ok x)
    (hr : ∀ w q, SameItems xs w v → SameBytes xs q p → f w q = f v p)
    (hg : Footprint xs (g x) out v p p') : Footprint xs (fun w q => f w q >>= fun x => g x w q) out v p p' where
  eq := by rw [hf, ok_bind, hg.eq]
  frame := hg.frame
  congr w q hw hq := by
    obtain ⟨q', hq', hsame⟩ := hg.congr w q hw hq
    exact ⟨q', by rw [hr w q hw hq, hf, ok_bind, hq'], hsame⟩

end Footprint

/-! ## Words -/

theorem SameBytes.load_eq {q : Scratchpad} (h : SameBytes xs q p) {a : Nat} (ha : .word a ∈ xs) :
    q.load a = p.load a :=
  Scratchpad.load_congr (h a ha)

theorem SameBytes.loadPair_eq {q : Scratchpad} (h : SameBytes xs q p) {a : Nat} (ha : .word a ∈ xs) :
    q.loadPair a = p.loadPair a := by
  rw [Scratchpad.loadPair, Scratchpad.loadPair, h.load_eq ha]

theorem footprint_store {a : Nat} {x : UInt64} (h : p.store a x = .ok p') (ha : .word a ∈ xs) :
    Footprint xs (fun _ q => q.store a x) (fun _ q => q) v p p' where
  eq := h
  frame i hi := Scratchpad.byte_of_store h (hi a ha)
  congr w q _ hq := by
    obtain ⟨q', hq'⟩ : ∃ q', q.store a x = .ok q' := by
      rw [Scratchpad.store_eq] at h ⊢
      split at h
      · exact ⟨_, if_pos ‹_›⟩
      · cases h
    exact ⟨q', hq', fun b hb k hk => Scratchpad.byte_of_store_congr h hq' (hq b hb k hk)⟩

theorem footprint_storeWords {a : Nat} {ws : List UInt64} (h : p.storeWords a ws = .ok p')
    (ha : ∀ j < ws.length, .word (a + 8 * j) ∈ xs) :
    Footprint xs (fun _ q => q.storeWords a ws) (fun _ q => q) v p p' := by
  induction ws generalizing a p with
  | nil =>
      cases h
      exact .pure _ v p'
  | cons w ws ih =>
      obtain ⟨p₁, hp₁, h⟩ := bind_eq_ok.mp h
      refine (footprint_store hp₁ (ha 0 (Nat.zero_lt_succ _))).bind (ih h fun j hj => ?_)
      have hword := ha (j + 1) (Nat.succ_lt_succ hj)
      rwa [Nat.mul_succ, Nat.add_comm (8 * j), ← Nat.add_assoc] at hword

theorem footprint_storeLine {a : Nat} {l : Line} (h : p.storeLine a l = .ok p')
    (ha : ∀ x ∈ lineAccesses a, x ∈ xs) :
    Footprint xs (fun _ q => q.storeLine a l) (fun _ q => q) v p p' := by
  simp only [Scratchpad.storeLine_eq] at h ⊢
  exact footprint_storeWords h fun j hj => ha _ (word_mem_lineAccesses a hj)

/-! ## Programs -/

namespace Program

variable {code : Code} {masks : LaneMasks} {c d e : Core} {n : Nat}

theorem Instruction.footprint {i : Instruction} (h : i.execute masks c = .ok d)
    (ha : ∀ a ∈ i.touched c.reg.r, .word a ∈ xs) :
    Footprint xs (fun _ q => i.execute masks { c with pad := q }) (fun _ q => { d with pad := q }) v c.pad d.pad := by
  cases i with
  | integer op dst o =>
      obtain ⟨x, hx, h⟩ := bind_eq_ok.mp h
      cases h
      cases o with
      | memory a => exact .read hx (fun _ q _ hq => hq.load_eq (ha _ List.mem_cons_self)) (.pure _ v c.pad)
      | _ => cases hx; exact .pure _ v c.pad
  | sum op dst o =>
      obtain ⟨x, hx, h⟩ := bind_eq_ok.mp h
      cases h
      cases o with
      | memory a => exact .read hx (fun _ q _ hq => hq.loadPair_eq (ha _ List.mem_cons_self)) (.pure _ v c.pad)
      | _ => cases hx; exact .pure _ v c.pad
  | divide dst a =>
      obtain ⟨x, hx, h⟩ := bind_eq_ok.mp h
      cases h
      exact .read hx (fun _ q _ hq => hq.loadPair_eq (ha _ List.mem_cons_self)) (.pure _ v c.pad)
  | store dst src imm mask =>
      obtain ⟨p, hp, h⟩ := bind_eq_ok.mp h
      cases h
      exact (footprint_store hp (ha _ List.mem_cons_self)).bind (.pure (fun _ q => Core.mk (c.counter + 1) c.reg q) v p)
  | addShifted dst src shift imm =>
      simp only [execute] at h ⊢
      split at h
      · cases h
        simp only [if_pos ‹_›]
        exact .pure _ v c.pad
      · cases h
  | branch b imm mask t =>
      simp only [execute_branch] at h ⊢
      cases h
      exact .pure _ v c.pad
  | _ => cases h; exact .pure _ v c.pad

theorem footprint_step (h : step code masks c = .ok d) (ha : ∀ a ∈ touched code c, .word a ∈ xs) :
    Footprint xs (fun _ q => step code masks { c with pad := q }) (fun _ q => { d with pad := q }) v c.pad d.pad := by
  cases hx : code[c.counter]? with
  | none =>
      rw [step, hx] at h
      cases h
  | some x =>
      rw [step, hx] at h
      rw [touched, hx] at ha
      simp only [step, hx]
      exact Instruction.footprint h ha

theorem footprint_run (h : run code masks n c = .ok e)
    (ha : ∀ d ∈ states code masks n c, ∀ a ∈ touched code d, .word a ∈ xs) :
    Footprint xs (fun _ q => run code masks n { c with pad := q }) (fun _ q => { e with pad := q }) v c.pad e.pad := by
  induction n generalizing c with
  | zero =>
      simp only [run] at h ⊢
      split at h
      · cases h
        simp only [if_pos ‹_›]
        exact .pure _ v _
      · cases h
  | succ n ih =>
      simp only [run, states] at h ha ⊢
      split at h
      · cases h
        simp only [if_pos ‹_›]
        exact .pure _ v _
      · obtain ⟨d, hd, h⟩ := bind_eq_ok.mp h
        rw [if_neg ‹_›, hd, collect_ok, List.forall_mem_cons] at ha
        simp only [if_neg ‹_›]
        exact (footprint_step hd ha.1).bind (ih h ha.2)

theorem footprint_execute {reg reg' : RegisterFile} (h : execute code masks reg p = .ok (reg', p'))
    (ha : ∀ x ∈ Program.accesses code masks ⟨0, reg, p⟩, x ∈ xs) :
    Footprint xs (fun _ q => execute code masks reg q) (fun _ q => (reg', q)) v p p' := by
  obtain ⟨e, he, h⟩ := bind_eq_ok.mp h
  cases h
  have htouched : ∀ d ∈ states code masks stepLimit ⟨0, reg, p⟩, ∀ a ∈ touched code d, .word a ∈ xs :=
    fun d hd a hda => ha _ (List.mem_flatMap.mpr ⟨d, hd, List.mem_map_of_mem hda⟩)
  exact (footprint_run he htouched).bind (.pure (fun _ q => (e.reg, q)) v e.pad)

end Program

/-! ## Iterations -/

namespace Iteration

variable {config : RoundConfig} {code : Program.Code} {it it' : Iteration} {reg reg' : RegisterFile} {n : Nat}

theorem footprint_writeBack
    (h : writeBack (it.address0 config) (it.address1 config) reg p = .ok (reg', p'))
    (ha : ∀ x ∈ it.stores config, x ∈ xs) :
    Footprint xs (fun _ q => writeBack (it.address0 config) (it.address1 config) reg q) (fun _ q => (reg', q)) v p
      p' := by
  obtain ⟨p₁, hp₁, h⟩ := bind_eq_ok.mp h
  obtain ⟨p₂, hp₂, h⟩ := bind_eq_ok.mp h
  cases h
  obtain ⟨ha₁, ha₀⟩ := List.forall_mem_append.mp ha
  exact (footprint_storeLine hp₁ ha₁).bind
    ((footprint_storeLine hp₂ ha₀).bind (.pure (fun _ q => ({ reg with f := reg.f.xor reg.e }, q)) v p'))

theorem footprint_next (hb : config.IsBounded) (hi : it.IsInBase) (h : it.next config code v = .ok it')
    (ha : ∀ x ∈ it.accesses config code, x ∈ xs) :
    Footprint xs (fun w q => next config { it with pad := q } code w) (fun _ q => { it' with pad := q }) v it.pad
      it'.pad := by
  rw [next_eq] at h
  obtain ⟨loaded, hloaded, h⟩ := bind_eq_ok.mp h
  obtain ⟨⟨reg, pad⟩, hex, h⟩ := bind_eq_ok.mp h
  obtain ⟨r, hr, h⟩ := bind_eq_ok.mp h
  obtain ⟨⟨reg', pad'⟩, hback, h⟩ := bind_eq_ok.mp h
  cases h
  rw [accesses, hloaded, collect_ok, List.forall_mem_append, List.forall_mem_append, List.forall_mem_cons] at ha
  obtain ⟨⟨hloads, hprogram⟩, hitem, hstores⟩ := ha
  -- The addresses come from the registers, whatever the memory.
  change Footprint xs (fun w q => loadRegisters config { it with pad := q } >>= fun reg =>
    Program.execute code config.masks reg q >>= fun out => w.read (config.offset + it.ma.toUInt64) out.1.r >>= fun r =>
      writeBack (it.address0 config) (it.address1 config) { out.1 with r := r } out.2 >>= fun back =>
        .ok (Iteration.mk back.1 back.2 (nextAddress config it.mx out.1.r) it.ma 0 0)) _ v it.pad pad'
  refine .read hloaded (fun _ q _ hq => loadRegisters_congr fun a ha => hq.load_eq (hloads _ ha)) ?_
  refine (Program.footprint_execute hex hprogram).bind ?_
  refine .read (f := fun w _ => w.read (config.offset + it.ma.toUInt64) reg.r) hr (fun w _ hw _ => ?_) ?_
  · refine congrArg (fun out => out >>= fun item => Pure.pure (reg.r.xor item)) (hw _ ?_)
    rwa [toNat_address_div hb hi]
  · exact (footprint_writeBack hback hstores).bind
      (g := fun _ back => .ok (Iteration.mk back.1 back.2 (nextAddress config it.mx reg.r) it.ma 0 0)) (.pure _ v pad')

theorem footprint_iterate (hb : config.IsBounded) (hi : it.IsInBase)
    (h : iterate config code v n it = .ok it')
    (ha : ∀ s ∈ states config code v n it, ∀ x ∈ s.accesses config code, x ∈ xs) :
    Footprint xs (fun w q => iterate config code w n { it with pad := q }) (fun _ q => { it' with pad := q }) v
      it.pad it'.pad := by
  induction n generalizing it with
  | zero =>
      cases h
      exact .pure _ v _
  | succ n ih =>
      obtain ⟨it₁, h₁, h⟩ := bind_eq_ok.mp h
      rw [states, h₁, collect_ok, List.forall_mem_cons] at ha
      exact (footprint_next hb hi h₁ ha.1).bind (ih (isInBase_of_next h₁) h ha.2)

end Iteration

/-! ## Rounds -/

theorem footprint_runRound {seed : Vector UInt8 64} {reg reg' : RegisterFile}
    (h : runRound v seed reg p = .ok (reg', p')) (ha : ∀ x ∈ roundAccesses v seed reg p, x ∈ xs) :
    Footprint xs (fun w q => runRound w seed reg q) (fun _ q => (reg', q)) v p p' := by
  obtain ⟨program, hp, h⟩ := bind_eq_ok.mp h
  obtain ⟨it, hit, h⟩ := bind_eq_ok.mp h
  cases h
  have hb := RoundConfig.ofEntropy_isBounded program.entropy
  rw [roundAccesses, hp, collect_ok, List.forall_mem_flatMap] at ha
  refine .read hp (fun _ _ _ _ => rfl) ?_
  exact (Iteration.footprint_iterate hb (Iteration.first_isInBase hb reg p) hit ha).bind
    (.pure (fun _ q => (it.reg, q)) v it.pad)

namespace Machine

variable {m k : Machine} {seed : Vector UInt8 64} {n : Nat}

theorem footprint_run (h : m.run seed = .ok k) (ha : ∀ x ∈ roundAccesses m.view seed m.reg m.pad, x ∈ xs) :
    Footprint xs (fun w q => run { m with view := w, pad := q } seed) (fun w q => { k with view := w, pad := q }) m.view
      m.pad k.pad := by
  rw [run_eq] at h
  obtain ⟨⟨reg, pad⟩, hr, h⟩ := bind_eq_ok.mp h
  cases h
  exact (footprint_runRound hr ha).bind (.pure (fun w q => Machine.mk m.flags w reg q) m.view pad)

/-- The accesses of rounds that follow one another are their footprint. -/
theorem footprint_runChain (h : m.runChain n seed = .ok k) (ha : ∀ x ∈ m.chainAccesses n seed, x ∈ xs) :
    Footprint xs (fun w q => runChain n seed { m with view := w, pad := q })
      (fun w q => { k with view := w, pad := q }) m.view m.pad k.pad := by
  induction n generalizing m seed with
  | zero =>
      cases h
      exact .pure _ _ _
  | succ n ih =>
      rw [runChain_succ] at h
      obtain ⟨m₁, hm, h⟩ := bind_eq_ok.mp h
      rw [chainAccesses, hm, collect_ok, List.forall_mem_append] at ha
      have hrest := ih h ha.2
      rw [view_of_run hm] at hrest
      simp only [runChain_succ]
      exact (footprint_run hm ha.1).bind hrest

end Machine

end RandomX
