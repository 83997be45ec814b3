import Mathlib.Data.List.Forall2
import Mathlib.Order.Bounds.Basic
import RandomX.Superscalar.PortMap

/-!
# Ports

A macro-operation issues in the first cycle in which each of its micro-operations has a free port of its own. Looking for
the cycle takes no port. When ports are taken, each micro-operation looks for its own anew, and as no port permits both
micro-operations of one macro-operation, the second still finds one in the same cycle.
-/
namespace RandomX.Superscalar

/-! ## Micro-operations -/

/-- The micro-operations that issue together. -/
def Issue.microOps : Issue → List MicroOp
  | .eliminated => []
  | .simple u => [u]
  | .pair a b => [a, b]

/-- No port permits both of two micro-operations. -/
def Issue.IsDisjoint : Issue → Prop
  | .pair a b => ∀ p, ¬ (a.permits p = true ∧ b.permits p = true)
  | _ => True

theorem Opcode.isDisjoint {o : Opcode} {op : MacroOp} (h : op ∈ o.recipe.ops) : op.issue.IsDisjoint := by
  have hwide : MacroOp.multiplyWide.issue.IsDisjoint := by
    intro p
    cases p <;> decide
  cases o with
  | imulhR | ismulhR =>
      simp only [recipe, List.mem_cons, List.not_mem_nil, or_false] at h
      rcases h with rfl | rfl | rfl
      · trivial
      · exact hwide
      · trivial
  | imulRcp =>
      simp only [recipe, List.mem_cons, List.not_mem_nil, or_false] at h
      rcases h with rfl | rfl <;> trivial
  | _ =>
      rw [List.mem_singleton.mp h]
      trivial

/-- The first cycle that is tried: a dependent macro-operation waits for the one before it. -/
def MacroOp.start (op : MacroOp) (cycle dependency : ℕ) : ℕ :=
  if op.isDependent then max cycle dependency else cycle

/-! ## Rows -/

namespace PortRow

variable {row : PortRow} {u : MicroOp} {p q : Port}

theorem get_set_self : (row.set p u).get p = some u := by
  cases p <;> rfl

theorem get_set_of_ne (h : q ≠ p) : (row.set p u).get q = row.get q := by
  cases p <;> cases q <;> first | rfl | exact absurd rfl h

theorem freePort?_eq_some (h : row.freePort? u = some p) : u.permits p = true ∧ row.get p = none := by
  simpa using List.find?_some h

theorem isSome_freePort?_iff : (row.freePort? u).isSome = true ↔ ∃ p, u.permits p = true ∧ row.get p = none := by
  rw [freePort?, List.find?_isSome]
  constructor
  · rintro ⟨p, _, hp⟩
    exact ⟨p, by simpa using hp⟩
  · rintro ⟨p, hp⟩
    exact ⟨p, by cases p <;> simp, by simpa using hp⟩

end PortRow

namespace PortMap

variable {map map' : PortMap} {a b u : MicroOp} {issue : Issue} {op : MacroOp} {p q : Port} {c n cycle dependency : ℕ}

/-- What has taken a port in a cycle. -/
def slot (map : PortMap) (cycle : ℕ) (p : Port) : Option MicroOp :=
  map[cycle]?.bind fun row => row.get p

/-- Each micro-operation has a port that it can issue on, and that is free and no other one's. -/
structure HasPorts (map : PortMap) (cycle : ℕ) (us : List MicroOp) (ports : List Port) : Prop where
  nodup : ports.Nodup
  free : List.Forall₂ (fun u p => u.permits p = true ∧ map.slot cycle p = none) us ports

/-- The cycles of the map from `start` on in which there are ports for all micro-operations. -/
def openCycles (map : PortMap) (us : List MicroOp) (start : ℕ) : Set ℕ :=
  {c | start ≤ c ∧ c < mapCycles ∧ ∃ ports, map.HasPorts c us ports}

/-- The micro-operations have taken their ports in a cycle, and no other port has changed. -/
structure Takes (map map' : PortMap) (cycle : ℕ) (us : List MicroOp) (ports : List Port) : Prop
    extends HasPorts map cycle us ports where
  taken : List.Forall₂ (fun u p => map'.slot cycle p = some u) us ports
  others : ∀ c p, (c = cycle → p ∉ ports) → map'.slot c p = map.slot c p

/-! ## Free ports -/

theorem isSome_freePort?_iff :
    (map.freePort? u c).isSome = true ↔ c < mapCycles ∧ ∃ p, u.permits p = true ∧ map.slot c p = none := by
  by_cases hc : c < mapCycles
  · simp only [freePort?, slot, Vector.getElem?_eq_getElem hc, Option.bind_some, PortRow.isSome_freePort?_iff, hc,
      true_and]
  · simp [freePort?, hc]

theorem slot_eq_none_of_freePort? (h : map.freePort? u c = some p) : u.permits p = true ∧ map.slot c p = none := by
  obtain ⟨row, hrow, hp⟩ := Option.bind_eq_some_iff.mp h
  rw [slot, hrow]
  exact PortRow.freePort?_eq_some hp

theorem slot_take (h : map.freePort? u c = some p) (d : ℕ) (q : Port) :
    (map.take u c).slot d q = if d = c ∧ q = p then some u else map.slot d q := by
  obtain ⟨row, hrow, hp⟩ := Option.bind_eq_some_iff.mp h
  obtain ⟨hc, rfl⟩ := Vector.getElem?_eq_some_iff.mp hrow
  simp only [take, dif_pos hc, hp, slot, Vector.getElem?_set]
  by_cases hd : d = c
  · subst hd
    by_cases hq : q = p
    · simp [hq, PortRow.get_set_self]
    · simp [hq, hrow, PortRow.get_set_of_ne hq]
  · simp [hd, Ne.symm hd]

theorem freePort?_congr (h : ∀ p, u.permits p = true → map'.slot c p = map.slot c p) :
    map'.freePort? u c = map.freePort? u c := by
  by_cases hc : c < mapCycles
  · simp only [freePort?, slot, Vector.getElem?_eq_getElem hc, Option.bind_some] at h ⊢
    refine congrArg (List.find? · _) (funext fun p => ?_)
    cases hp : u.permits p with
    | false => rfl
    | true => rw [h p hp]
  · simp [freePort?, hc]

/-- A micro-operation leaves the free ports of one that shares no port with it. -/
theorem freePort?_take (hs : (Issue.pair a b).IsDisjoint) (ha : map.freePort? a c = some p) :
    (map.take a c).freePort? b c = map.freePort? b c := by
  refine freePort?_congr fun q hq => ?_
  rw [slot_take ha, if_neg]
  rintro ⟨_, rfl⟩
  exact hs q ⟨(slot_eq_none_of_freePort? ha).1, hq⟩

/-! ## Searches -/

/-- A search comes up with the least of some cycles, or with nothing if there is none. -/
def FindsLeast (cycles : Set ℕ) : Option ℕ → Prop
  | some c => IsLeast cycles c
  | none => cycles = ∅

theorem setOf_succ_le {P : ℕ → Prop} (h : ¬ P cycle) : {c | cycle + 1 ≤ c ∧ P c} = {c | cycle ≤ c ∧ P c} := by
  ext c
  refine ⟨fun hc => ⟨Nat.le_of_succ_le hc.1, hc.2⟩, fun hc => ⟨Nat.lt_of_le_of_ne hc.1 ?_, hc.2⟩⟩
  rintro rfl
  exact h hc.2

theorem not_isSome_freePort? (hc : mapCycles ≤ c) : ¬ (map.freePort? u c).isSome = true :=
  fun h => Nat.not_lt.mpr hc (isSome_freePort?_iff.mp h).1

theorem firstFree_finds (hn : mapCycles ≤ cycle + n) :
    FindsLeast {c | cycle ≤ c ∧ (map.freePort? u c).isSome = true} (map.firstFree u n cycle) := by
  induction n generalizing cycle with
  | zero => exact Set.eq_empty_of_forall_notMem fun c hc => not_isSome_freePort? (hn.trans hc.1) hc.2
  | succ n ih =>
      rw [firstFree]
      split
      · rename_i hfree
        exact ⟨⟨le_rfl, hfree⟩, fun d hd => hd.1⟩
      · rename_i hfree
        rw [← setOf_succ_le hfree]
        exact ih (by omega)

theorem earliest_finds (map : PortMap) (u : MicroOp) (cycle : ℕ) :
    FindsLeast {c | cycle ≤ c ∧ (map.freePort? u c).isSome = true} (map.earliest u cycle) :=
  firstFree_finds (by omega)

theorem earliest_of_isSome (h : (map.freePort? u cycle).isSome = true) : map.earliest u cycle = some cycle := by
  have hfinds := map.earliest_finds u cycle
  cases he : map.earliest u cycle with
  | none =>
      rw [he] at hfinds
      exact absurd ⟨le_rfl, h⟩ (Set.eq_empty_iff_forall_notMem.mp hfinds cycle)
  | some c =>
      rw [he] at hfinds
      exact congrArg some (Nat.le_antisymm (hfinds.2 ⟨le_rfl, h⟩) hfinds.1.1)

theorem isSome_of_earliest (h : map.earliest u cycle = some c) : (map.freePort? u c).isSome = true := by
  have hfinds := map.earliest_finds u cycle
  rw [h] at hfinds
  exact hfinds.1.2

/-- Where both searches end in one cycle, no earlier one has ports for both, and where they do not, the first cycle has
none for one of the two. -/
theorem firstCommon_finds (hn : mapCycles ≤ cycle + n) :
    FindsLeast {c | cycle ≤ c ∧ (map.freePort? a c).isSome = true ∧ (map.freePort? b c).isSome = true}
      (map.firstCommon a b n cycle) := by
  induction n generalizing cycle with
  | zero => exact Set.eq_empty_of_forall_notMem fun c hc => not_isSome_freePort? (hn.trans hc.1) hc.2.1
  | succ n ih =>
      have hrest : FindsLeast _ (map.firstCommon a b n (cycle + 1)) := ih (by omega)
      rw [firstCommon]
      split
      · rename_i x y hx hy
        have ha := map.earliest_finds a cycle
        rw [hx] at ha
        split
        · rename_i hxy
          exact ⟨⟨ha.1.1, ha.1.2, hxy ▸ isSome_of_earliest hy⟩, fun d hd => ha.2 ⟨hd.1, hd.2.1⟩⟩
        · rename_i hxy
          rwa [setOf_succ_le] at hrest
          rintro ⟨hfreeA, hfreeB⟩
          rw [earliest_of_isSome hfreeA] at hx
          rw [earliest_of_isSome hfreeB] at hy
          exact hxy ((Option.some.inj hx).symm.trans (Option.some.inj hy))
      · rename_i hnone
        rwa [setOf_succ_le] at hrest
        rintro ⟨hfreeA, hfreeB⟩
        exact hnone _ _ (earliest_of_isSome hfreeA) (earliest_of_isSome hfreeB)

theorem commonCycle_finds (map : PortMap) (a b : MicroOp) (cycle : ℕ) :
    FindsLeast {c | cycle ≤ c ∧ (map.freePort? a c).isSome = true ∧ (map.freePort? b c).isSome = true}
      (map.firstCommon a b (mapCycles - cycle) cycle) :=
  firstCommon_finds (by omega)

/-! ## Macro-operations -/

/-- No macro-operation issues before the cycle from which it is scheduled. -/
theorem le_of_schedule (h : map.schedule op cycle dependency = some c) : cycle ≤ c := by
  have hstart : cycle ≤ op.start cycle dependency := by
    rw [MacroOp.start]
    split
    · exact Nat.le_max_left _ _
    · exact le_rfl
  refine hstart.trans ?_
  rw [schedule] at h
  cases hi : op.issue with
  | eliminated =>
      rw [hi] at h
      exact (Option.some.inj h).le
  | simple u =>
      have hfinds := map.earliest_finds u (op.start cycle dependency)
      rw [hi] at h
      rw [MacroOp.start, show map.earliest u _ = some c from h] at hfinds
      exact hfinds.1.1
  | pair a b =>
      have hfinds := map.commonCycle_finds a b (op.start cycle dependency)
      rw [hi] at h
      rw [MacroOp.start, show map.firstCommon a b _ _ = some c from h] at hfinds
      exact hfinds.1.1

theorem openCycles_simple (map : PortMap) (u : MicroOp) (start : ℕ) :
    map.openCycles [u] start = {c | start ≤ c ∧ (map.freePort? u c).isSome = true} := by
  ext c
  simp only [openCycles, Set.mem_ofPred_eq, isSome_freePort?_iff]
  refine and_congr_right fun _ => and_congr_right fun _ => ⟨?_, ?_⟩
  · rintro ⟨_, _, hfree⟩
    obtain _ | ⟨hp, _ | _⟩ := hfree
    exact ⟨_, hp⟩
  · rintro ⟨p, hp⟩
    exact ⟨[p], List.pairwise_singleton _ p, .cons hp .nil⟩

theorem openCycles_pair (hs : (Issue.pair a b).IsDisjoint) (map : PortMap) (start : ℕ) :
    map.openCycles [a, b] start =
      {c | start ≤ c ∧ (map.freePort? a c).isSome = true ∧ (map.freePort? b c).isSome = true} := by
  ext c
  simp only [openCycles, Set.mem_ofPred_eq, isSome_freePort?_iff]
  refine and_congr_right fun _ => ⟨?_, ?_⟩
  · rintro ⟨hc, _, _, hfree⟩
    obtain _ | ⟨hp, _ | ⟨hq, _ | _⟩⟩ := hfree
    exact ⟨⟨hc, _, hp⟩, hc, _, hq⟩
  · rintro ⟨⟨hc, p, hp⟩, _, q, hq⟩
    refine ⟨hc, [p, q], ?_, .cons hp (.cons hq .nil)⟩
    rw [List.nodup_cons, List.mem_singleton]
    refine ⟨?_, List.pairwise_singleton _ q⟩
    rintro rfl
    exact hs p ⟨hp.1, hq.1⟩

theorem issueCycle_finds (hs : issue.IsDisjoint) (hne : issue ≠ .eliminated) (map : PortMap) (start : ℕ) :
    FindsLeast (map.openCycles issue.microOps start) (map.issueCycle issue start) := by
  cases issue with
  | eliminated => exact absurd rfl hne
  | simple u =>
      rw [Issue.microOps, openCycles_simple]
      exact map.earliest_finds u start
  | pair a b =>
      rw [Issue.microOps, openCycles_pair hs]
      exact map.commonCycle_finds a b start

theorem takes_simple (hc : c ∈ map.openCycles [u] cycle) : ∃ ports, Takes map (map.take u c) c [u] ports := by
  rw [openCycles_simple] at hc
  obtain ⟨p, hp⟩ := Option.isSome_iff_exists.mp hc.2
  refine ⟨[p], ⟨List.pairwise_singleton _ p, .cons (slot_eq_none_of_freePort? hp) .nil⟩, .cons ?_ .nil, fun d q hq => ?_⟩
  · rw [slot_take hp, if_pos ⟨rfl, rfl⟩]
  · rw [slot_take hp, if_neg fun h => hq h.1 (List.mem_singleton.mpr h.2)]

theorem takes_pair (hs : (Issue.pair a b).IsDisjoint) (hc : c ∈ map.openCycles [a, b] cycle) :
    ∃ ports, Takes map ((map.take a c).take b c) c [a, b] ports := by
  rw [openCycles_pair hs] at hc
  obtain ⟨p, hp⟩ := Option.isSome_iff_exists.mp hc.2.1
  obtain ⟨q, hq⟩ := Option.isSome_iff_exists.mp hc.2.2
  have hp' := slot_eq_none_of_freePort? hp
  have hq' := slot_eq_none_of_freePort? hq
  have hne : p ≠ q := by
    rintro rfl
    exact hs p ⟨hp'.1, hq'.1⟩
  -- The second micro-operation finds the port that it would have found before the first took its own.
  have hslot := slot_take ((freePort?_take hs hp).trans hq)
  refine ⟨[p, q], ⟨by simp [hne], .cons hp' (.cons hq' .nil)⟩, .cons ?_ (.cons ?_ .nil), fun d r hr => ?_⟩
  · rw [hslot, if_neg fun h => hne h.2, slot_take hp, if_pos ⟨rfl, rfl⟩]
  · rw [hslot, if_pos ⟨rfl, rfl⟩]
  · rw [hslot, if_neg fun h => hr h.1 (by simp [h.2]), slot_take hp, if_neg fun h => hr h.1 (by simp [h.2])]

theorem takes_of_schedule (hs : op.issue.IsDisjoint) (h : map.schedule op cycle dependency = some c) :
    ∃ ports, Takes map (map.commit op.issue c) c op.issue.microOps ports := by
  rw [schedule] at h
  cases hi : op.issue with
  | eliminated => exact ⟨[], ⟨List.nodup_nil, .nil⟩, .nil, fun _ _ _ => rfl⟩
  | simple u =>
      rw [hi] at h hs
      have hfinds := issueCycle_finds hs nofun map (op.start cycle dependency)
      rw [MacroOp.start, h] at hfinds
      exact takes_simple hfinds.1
  | pair a b =>
      rw [hi] at h hs
      have hfinds := issueCycle_finds hs nofun map (op.start cycle dependency)
      rw [MacroOp.start, h] at hfinds
      exact takes_pair hs hfinds.1

theorem HasPorts.slot_eq_none {us : List MicroOp} {ports : List Port} (h : map.HasPorts cycle us ports)
    (hp : p ∈ ports) : map.slot cycle p = none := by
  obtain ⟨-, hfree⟩ := h
  induction hfree with
  | nil => cases hp
  | cons hfirst _ ih =>
      rcases List.mem_cons.mp hp with rfl | hp
      · exact hfirst.2
      · exact ih hp

/-- A port that a micro-operation has taken stays with it. -/
theorem Takes.slot_eq_some {us : List MicroOp} {ports : List Port} (h : Takes map map' cycle us ports)
    (hslot : map.slot c p = some u) : map'.slot c p = some u := by
  rw [h.others c p, hslot]
  rintro rfl hp
  rw [h.slot_eq_none hp] at hslot
  cases hslot

/-! ## Searches that take what they find -/

/-- Looks for a port from a cycle on, and takes it if asked to. Returns the cycle and the map after the search. -/
def searchPort (commits : Bool) (u : MicroOp) (cycle : ℕ) (map : PortMap) : Option ℕ × PortMap :=
  match map.earliest u cycle with
  | some c => (some c, if commits then map.take u c else map)
  | none => (none, map)

/-- Looks for a common cycle of two micro-operations in up to `n` cycles. If asked to, it then lets one after the other
search for a port and take it. -/
def searchPair (commits : Bool) (a b : MicroOp) : (n cycle : ℕ) → PortMap → Option ℕ × PortMap
  | 0, _, map => (none, map)
  | n + 1, cycle, map =>
    let (x, map) := map.searchPort false a cycle
    let (y, map) := map.searchPort false b cycle
    match x, y with
    | some x, some y =>
      if x = y then (some x, if commits then ((map.searchPort true a x).2.searchPort true b y).2 else map)
      else searchPair commits a b n (cycle + 1) map
    | _, _ => searchPair commits a b n (cycle + 1) map

/-- Scheduling and committing as one operation on the map. -/
def search (commits : Bool) (op : MacroOp) (cycle dependency : ℕ) (map : PortMap) : Option ℕ × PortMap :=
  let start := op.start cycle dependency
  match op.issue with
  | .eliminated => (some start, map)
  | .simple u => map.searchPort commits u start
  | .pair a b => map.searchPair commits a b (mapCycles - start) start

theorem searchPort_false (u : MicroOp) (cycle : ℕ) (map : PortMap) :
    map.searchPort false u cycle = (map.earliest u cycle, map) := by
  rw [searchPort]
  split
  · rename_i he
    rw [he]
    rfl
  · rename_i he
    rw [he]

theorem searchPort_true (u : MicroOp) (cycle : ℕ) (map : PortMap) :
    map.searchPort true u cycle = (map.earliest u cycle, (map.earliest u cycle).elim map (map.take u)) := by
  rw [searchPort]
  split
  · rename_i he
    rw [he]
    rfl
  · rename_i he
    rw [he]
    rfl

theorem searchPair_false (a b : MicroOp) (n cycle : ℕ) (map : PortMap) :
    map.searchPair false a b n cycle = (map.firstCommon a b n cycle, map) := by
  induction n generalizing cycle with
  | zero => rfl
  | succ n ih =>
      rw [searchPair, firstCommon]
      simp only [searchPort_false, ih]
      cases map.earliest a cycle with
      | none => rfl
      | some x =>
          cases map.earliest b cycle with
          | none => rfl
          | some y =>
              by_cases hxy : x = y
              · simp only [hxy, if_true]
                rfl
              · simp only [hxy, if_false]

theorem searchPair_true (hs : (Issue.pair a b).IsDisjoint) (n cycle : ℕ) (map : PortMap) :
    map.searchPair true a b n cycle =
      (map.firstCommon a b n cycle, (map.firstCommon a b n cycle).elim map (map.commit (.pair a b))) := by
  induction n generalizing cycle with
  | zero => rfl
  | succ n ih =>
      rw [searchPair, firstCommon]
      simp only [searchPort_false, ih]
      cases hx : map.earliest a cycle with
      | none => rfl
      | some x =>
          cases hy : map.earliest b cycle with
          | none => rfl
          | some y =>
              by_cases hxy : x = y
              · subst hxy
                obtain ⟨p, hp⟩ := Option.isSome_iff_exists.mp (isSome_of_earliest hx)
                have hfirst : map.earliest a x = some x := earliest_of_isSome (isSome_of_earliest hx)
                have hsecond : (map.take a x).earliest b x = some x :=
                  earliest_of_isSome ((congrArg _ (freePort?_take hs hp)).trans (isSome_of_earliest hy))
                simp only [searchPort_true, hfirst, hsecond, Option.elim_some, commit, if_true]
              · simp only [hxy, if_false]

theorem search_false (op : MacroOp) (cycle dependency : ℕ) (map : PortMap) :
    map.search false op cycle dependency = (map.schedule op cycle dependency, map) := by
  rw [search, schedule]
  cases op.issue with
  | eliminated => rfl
  | simple u => exact searchPort_false u _ map
  | pair a b => exact searchPair_false a b _ _ map

theorem search_true (hs : op.issue.IsDisjoint) (cycle dependency : ℕ) (map : PortMap) :
    map.search true op cycle dependency = (map.schedule op cycle dependency,
      (map.schedule op cycle dependency).elim map (map.commit op.issue)) := by
  rw [search, schedule]
  cases hi : op.issue with
  | eliminated => rfl
  | simple u => exact searchPort_true u _ map
  | pair a b =>
      rw [hi] at hs
      exact searchPair_true hs _ _ map

/-! ## Booking -/

/-- What scheduling a macro-operation comes to, and what it does to the map when ports are taken and when not. -/
structure IsBooking (map : PortMap) (op : MacroOp) (cycle dependency : ℕ) : Prop where
  /-- A search that takes nothing leaves the map as it is. -/
  query : map.search false op cycle dependency = (map.schedule op cycle dependency, map)
  least : op.issue ≠ .eliminated →
    FindsLeast (map.openCycles op.issue.microOps (op.start cycle dependency)) (map.schedule op cycle dependency)
  eliminated : op.issue = .eliminated → map.schedule op cycle dependency = some (op.start cycle dependency)
  refused : map.schedule op cycle dependency = none → map.search true op cycle dependency = (none, map)
  /-- A search that takes ports finds the same cycle, and takes them there. -/
  taken : ∀ c, map.schedule op cycle dependency = some c →
    map.search true op cycle dependency = (some c, map.commit op.issue c) ∧
      ∃ ports, Takes map (map.commit op.issue c) c op.issue.microOps ports

theorem isBooking (hs : op.issue.IsDisjoint) (map : PortMap) (cycle dependency : ℕ) :
    map.IsBooking op cycle dependency where
  query := search_false op cycle dependency map
  least hne := issueCycle_finds hs hne map (op.start cycle dependency)
  eliminated hi := by
    rw [schedule, hi]
    rfl
  refused h := by
    rw [search_true hs, h]
    rfl
  taken c h := by
    refine ⟨?_, takes_of_schedule hs h⟩
    rw [search_true hs, h]
    rfl

end PortMap

end RandomX.Superscalar
