import RandomX.Proofs.Superscalar.Ports
import RandomX.Proofs.Superscalar.Slots

/-!
# Bookings

A step of a builder takes no ports, or those of one macro-operation in the cycle in which it issues. What has taken a port
keeps it for the whole run.
-/
namespace RandomX.Superscalar

namespace Builder

variable {σ : Type} {b b' : Builder σ} {c : Candidate} {shape : Shape} {slots : List ℕ}

/-- No port has changed, or a macro-operation has taken ports in a cycle that a search has found. -/
inductive Books (b b' : Builder σ) : Prop where
  | idle (h : b'.ports = b.ports)
  | taken {o : Opcode} {op : MacroOp} {cycle issued : ℕ} (hop : op ∈ o.recipe.ops)
      (hport : b.ports.schedule op cycle cycle = some issued) (h : b'.ports = b.ports.commit op.issue issued)

theorem ports_stall (b : Builder σ) : b.stall.ports = b.ports := by
  rw [stall]
  split <;> rfl

variable [EntropyStream σ]

theorem Tries.books {b₀ : Builder σ} (h : Tries b₀ c shape slots b') (hports : b₀.ports = b.ports) : Books b b' := by
  cases h with
  | blocked => exact .idle hports
  | sourceless => exact .idle ((ports_stall _).trans hports)
  | placeless => exact .idle ((ports_stall _).trans hports)
  | issues hop _ _ _ h =>
      rcases h.cases with rfl | ⟨_, _, _, hport, rfl⟩
      · exact .idle hports
      · exact .taken (List.mem_of_getElem? hop) (hports ▸ hport) (congrArg (PortMap.commit · _ _) hports)

theorem Steps.books (h : b.Steps b') : Books b b' := by
  cases h with
  | stopped | opened | ended | filled | full => exact .idle rfl
  | drawn _ _ _ _ ht => exact ht.books rfl
  | resumed _ _ _ ht => exact ht.books rfl

omit [EntropyStream σ] in
theorem Books.slot_eq_some (h : Books b b') {cycle : ℕ} {p : Port} {u : MicroOp}
    (hslot : b.ports.slot cycle p = some u) : b'.ports.slot cycle p = some u := by
  cases h with
  | idle h => rw [h, hslot]
  | taken hop hport h =>
      obtain ⟨ports, htakes⟩ := PortMap.takes_of_schedule (Opcode.isDisjoint hop) hport
      rw [h]
      exact htakes.slot_eq_some hslot

/-- Every macro-operation is scheduled in the first cycle with ports for all its micro-operations, and takes no ports but
these. Each step of a builder takes ports only in this way, so that what has taken a port keeps it to the end. -/
theorem ports_are_never_taken_twice :
    (∀ (o : Opcode), ∀ op ∈ o.recipe.ops, ∀ (map : PortMap) (cycle dependency : ℕ),
      map.IsBooking op cycle dependency) ∧
    ∀ {σ : Type} [EntropyStream σ] (b : Builder σ),
      (∀ b', b.step = .ok b' → Books b b') ∧
        ∀ b', b.Reaches b' → ∀ cycle p u, b.ports.slot cycle p = some u → b'.ports.slot cycle p = some u := by
  refine ⟨fun o op hop => PortMap.isBooking (Opcode.isDisjoint hop), fun b => ⟨fun b' hstep => ?_, fun b' hb' => ?_⟩⟩
  · exact (steps_of_step hstep).books
  · intro cycle p u hslot
    exact hb'.property (fun _ _ h hb => hb.books.slot_eq_some h) hslot

/-- Port 1 is taken in one cycle and port 5 in the next, so a wide product waits for a third one. Where all bytes are 3
and all words 5, the first instruction is a product that takes port 1, and the third step leaves it there. -/
theorem wide_product_waits_for_both_ports :
    let map := (PortMap.empty.take .p1 3).take .p5 4
    MacroOp.multiplyWide ∈ Opcode.imulhR.recipe.ops ∧ map.IsBooking .multiplyWide 3 0 ∧
      map.schedule .multiplyWide 3 0 = some 5 ∧
      ∃ b b' : Builder Repeating, (start (Repeating.mk 3 5)).after 2 = .ok b ∧ b.step = .ok b' ∧ Books b b' ∧
        b.ports.slot 0 .p1 = some .p1 ∧ b'.ports.slot 0 .p1 = some .p1 := by
  intro map
  have hop : MacroOp.multiplyWide ∈ Opcode.imulhR.recipe.ops := by decide
  have hrun : ∃ b b' : Builder Repeating, (start (Repeating.mk 3 5)).after 2 = .ok b ∧ b.step = .ok b' ∧
      b.ports.slot 0 .p1 = some .p1 := ⟨_, _, rfl, rfl, rfl⟩
  obtain ⟨b, b', hafter, hstep, hslot⟩ := hrun
  obtain ⟨hbooks, hkept⟩ := ports_are_never_taken_twice.2 b
  exact ⟨hop, ports_are_never_taken_twice.1 _ _ hop map 3 0, rfl, b, b', hafter, hstep, hbooks b' hstep, hslot,
    hkept b' (.step .refl hstep) 0 .p1 .p1 hslot⟩

end Builder

end RandomX.Superscalar
