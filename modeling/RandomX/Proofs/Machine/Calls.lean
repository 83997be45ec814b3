import RandomX.Proofs.Machine.Run

/-!
# Calls

What can be asked of a machine after its creation. The flags decide once and for all whether it reads from a cache or
from a dataset, and a change that is refused might as well not have been tried.
-/
namespace RandomX.Machine

open Outcome

variable {m m' : Machine} {flags : Flags} {cache : Option Cache} {dataset : Option Dataset} {e : Error}

/-! ## Sessions -/

/-- A change of what a machine reads from. -/
inductive Change where
  | cache (c : Cache)
  | dataset (d : Dataset)

inductive Call where
  | change (change : Change)
  | hash (input : ByteArray)

def Change.apply : Change → Machine → Except Error Unit × Machine
  | .cache c, m => m.setCache c
  | .dataset d, m => m.setDataset d

/-- Why a machine with the flags refuses a change, if it does. -/
def Change.refusal (flags : Flags) : Change → Option Error
  | .cache c =>
    if flags.fullMem then some (.modeMismatch "cache") else if c.isInitialised then none else some .missingCache
  | .dataset _ => if flags.fullMem then none else some (.modeMismatch "dataset")

/-- The digest of a hash and the machine after it. -/
def hashed (m : Machine) : Except Error (Digest × Machine) → Except Error (Option Digest) × Machine
  | .ok (d, m') => (.ok (some d), m')
  | .error e => (.error e, m)

/-- What a call returns, and the machine after it. Only a hash returns a digest. -/
def answer (m : Machine) : Call → Except Error (Option Digest) × Machine
  | .change c => ((c.apply m).1.map fun _ => none, (c.apply m).2)
  | .hash input => m.hashed (m.hash input)

/-- The answers to calls made one after the other, and the machine after them. -/
def session (m : Machine) : List Call → List (Except Error (Option Digest)) × Machine
  | [] => ([], m)
  | call :: calls =>
    let (a, m) := m.answer call
    let (rest, m) := m.session calls
    (a :: rest, m)

theorem session_cons (m : Machine) (call : Call) (calls : List Call) :
    m.session (call :: calls) =
      ((m.answer call).1 :: ((m.answer call).2.session calls).1, ((m.answer call).2.session calls).2) :=
  rfl

/-! ## The mode -/

/-- The machine has the flags it was created with, none of them unsupported, and the view that they ask for. -/
structure InMode (flags : Flags) (m : Machine) : Prop where
  flags_eq : m.flags = flags
  jit : flags.jit = false
  largePages : flags.largePages = false
  isFull : m.view.isFull = flags.fullMem
  isInitialised : ∀ c, m.view = .light c → c.isInitialised = true

theorem InMode.of_same (h : m.InMode flags) (hf : m'.flags = m.flags) (hv : m'.view = m.view) : m'.InMode flags :=
  ⟨hf.trans h.flags_eq, h.jit, h.largePages, hv ▸ h.isFull, hv ▸ h.isInitialised⟩

theorem supported_of_checkFlags (h : Cache.checkFlags flags = .ok ()) :
    flags.jit = false ∧ flags.largePages = false := by
  rw [Cache.checkFlags] at h
  split at h
  · cases h
  · split at h
    · cases h
    · exact ⟨Bool.eq_false_iff.mpr ‹_›, Bool.eq_false_iff.mpr ‹_›⟩

theorem view_of_viewFor {view : DatasetView} (h : viewFor flags cache dataset = .ok view) :
    view.isFull = flags.fullMem ∧ ∀ c, view = .light c → c.isInitialised = true := by
  unfold viewFor at h
  split at h
  · rename_i hfull
    split at h
    · cases h
      exact ⟨hfull.symm, nofun⟩
    · cases h
    · cases h
  · rename_i hfull
    split at h
    · split at h
      · rename_i hi
        cases h
        refine ⟨(Bool.eq_false_iff.mpr hfull).symm, ?_⟩
        rintro _ ⟨⟩
        exact hi
      · cases h
    · cases h
    · cases h

theorem InMode.create (h : Machine.create flags cache dataset = .ok m) : m.InMode flags := by
  obtain ⟨_, hflags, h⟩ := bind_eq_ok.mp h
  obtain ⟨view, hview, h⟩ := bind_eq_ok.mp h
  cases h
  obtain ⟨hjit, hlarge⟩ := supported_of_checkFlags hflags
  obtain ⟨hfull, hinit⟩ := view_of_viewFor hview
  exact ⟨rfl, hjit, hlarge, hfull, hinit⟩

/-! ## Steps -/

/-- Whatever the machine has done, its flags alone decide whether it takes a change. -/
theorem InMode.apply_eq (h : m.InMode flags) (change : Change) :
    match change.refusal flags with
    | some e => change.apply m = (.error e, m)
    | none => (change.apply m).1 = .ok () ∧ (change.apply m).2.InMode flags := by
  obtain rfl := h.flags_eq
  cases change with
  | cache c =>
      simp only [Change.refusal, Change.apply, setCache]
      cases hfull : m.flags.fullMem with
      | true => rfl
      | false =>
          cases hi : c.isInitialised with
          | false => rfl
          | true =>
              refine ⟨rfl, rfl, h.jit, h.largePages, hfull.symm, ?_⟩
              rintro _ ⟨⟩
              exact hi
  | dataset d =>
      simp only [Change.refusal, Change.apply, setDataset]
      cases hfull : m.flags.fullMem with
      | false => rfl
      | true => exact ⟨rfl, rfl, h.jit, h.largePages, hfull.symm, nofun⟩

theorem InMode.answer_change (h : m.InMode flags) (change : Change) :
    (m.answer (.change change)).1 =
      match change.refusal flags with
      | some e => .error e
      | none => .ok none := by
  have happly := h.apply_eq change
  cases hr : change.refusal flags with
  | some e =>
      simp only [hr] at happly
      simp only [answer, happly, Except.map]
  | none =>
      simp only [hr] at happly
      simp only [answer, happly.1, Except.map]

theorem InMode.answer (h : m.InMode flags) (call : Call) : (m.answer call).2.InMode flags := by
  cases call with
  | change change =>
      have happly := h.apply_eq change
      split at happly
      · rwa [Machine.answer, happly]
      · exact happly.2
  | hash input =>
      rw [Machine.answer]
      cases hhash : m.hash input with
      | error e => exact h
      | ok out =>
          obtain ⟨hflags, hview⟩ := binding_of_hash hhash
          exact h.of_same hflags hview

theorem InMode.session (h : m.InMode flags) (calls : List Call) : (m.session calls).2.InMode flags := by
  induction calls generalizing m with
  | nil => exact h
  | cons call calls ih => exact ih (h.answer call)

/-! ## Failures -/

theorem Change.apply_of_error {change : Change} (h : (change.apply m).1 = .error e) : (change.apply m).2 = m := by
  cases change with
  | cache c =>
      rw [Change.apply, setCache] at h ⊢
      split at h
      · rw [if_pos ‹_›]
      · rw [if_neg ‹_›]
        split at h
        · rw [if_pos ‹_›]
        · cases h
  | dataset d =>
      rw [Change.apply, setDataset] at h ⊢
      split at h
      · rw [if_pos ‹_›]
      · cases h

theorem answer_eq_of_error {call : Call} (h : (m.answer call).1 = .error e) : m.answer call = (.error e, m) := by
  refine Prod.ext h ?_
  cases call with
  | change change =>
      cases happly : (change.apply m).1 with
      | ok u =>
          rw [answer, happly] at h
          cases h
      | error e' => exact change.apply_of_error happly
  | hash input =>
      rw [answer] at h ⊢
      cases hhash : m.hash input with
      | error e => rfl
      | ok out =>
          rw [hhash] at h
          cases h

/-- A call that fails adds its error to the answers of a session, and nothing else. -/
theorem session_of_error {before : List Call} {call : Call} (h : ((m.session before).2.answer call).1 = .error e)
    (after : List Call) :
    m.session (before ++ call :: after) =
      ((m.session (before ++ after)).1.insertIdx before.length (.error e), (m.session (before ++ after)).2) := by
  induction before generalizing m with
  | nil =>
      have hcall : m.answer call = (.error e, m) := answer_eq_of_error h
      rw [List.nil_append, session_cons, hcall, List.nil_append, List.length_nil, List.insertIdx_zero]
  | cons first before ih =>
      have hrest := ih (m := (m.answer first).2) h
      simp only [List.cons_append, session_cons, hrest, List.length_cons, List.insertIdx_succ_cons]

/-- After any calls a machine has the flags it was created with and the view that they ask for. They decide which
changes it refuses, and a refused change leaves the machine and all later answers as they would have been without it. -/
theorem memory_mode_is_kept (h : Machine.create flags cache dataset = .ok m) (before : List Call) :
    (m.session before).2.InMode flags ∧
      ∀ change,
        ((m.session before).2.answer (.change change)).1 =
            (match change.refusal flags with
            | some e => .error e
            | none => .ok none) ∧
          ∀ e, ((m.session before).2.answer (.change change)).1 = .error e →
            ((m.session before).2.answer (.change change)).2 = (m.session before).2 ∧
              ∀ after, m.session (before ++ .change change :: after) =
                ((m.session (before ++ after)).1.insertIdx before.length (.error e),
                  (m.session (before ++ after)).2) := by
  have hmode := (InMode.create h).session before
  refine ⟨hmode, fun change => ⟨hmode.answer_change change, fun e he => ⟨?_, session_of_error he⟩⟩⟩
  rw [answer_eq_of_error he]

/-- A machine in full mode to which a cache is offered between two hashes. -/
theorem full_machine_refuses_cache :
    let m := Machine.mk ⟨false, false, true, false, false⟩ (.full ⟨⟨#[], [], none⟩, ∅⟩) (.blank .nearest) .blank
    (m.session [.hash .empty]).2.InMode ⟨false, false, true, false, false⟩ ∧
      m.session [.hash .empty, .change (.cache ⟨#[], [], some .empty⟩), .hash .empty] =
        ((m.session [.hash .empty, .hash .empty]).1.insertIdx 1 (.error (.modeMismatch "cache")),
          (m.session [.hash .empty, .hash .empty]).2) := by
  intro m
  have hcreate : Machine.create ⟨false, false, true, false, false⟩ none (some ⟨⟨#[], [], none⟩, ∅⟩) = .ok m := rfl
  obtain ⟨hmode, hchange⟩ := memory_mode_is_kept hcreate [.hash .empty]
  obtain ⟨hrefused, hkept⟩ := hchange (.cache ⟨#[], [], some .empty⟩)
  exact ⟨hmode, (hkept (.modeMismatch "cache") hrefused).2 [.hash .empty]⟩

end RandomX.Machine
