import Mathlib

/-!
# Transition systems

A transition system is a set of initial states and a step relation. A property
that holds initially and is kept by every step holds in every reachable state
(`Reachable.induct`); a simulation carries reachable states, and with them
such properties, from one system to another (`Simulation.reachable`). When the
simulating system has to know in advance what will happen, the simulated one is
restricted to the runs for which it is right (`Reachable.restrict`).
-/

/-- A transition system on the states `S`. -/
structure Lts (S : Type*) where
  /-- The initial states. -/
  Init : S → Prop
  /-- The possible steps. -/
  Step : S → S → Prop

namespace Lts

variable {S T : Type*} (m : Lts S)

/-- The states a run can get to. -/
inductive Reachable : S → Prop
  | init {s : S} : m.Init s → Reachable s
  | step {s s' : S} : Reachable s → m.Step s s' → Reachable s'

/-- The states a run from `s` can get to. -/
def Reaches (s s' : S) : Prop := Relation.ReflTransGen m.Step s s'

variable {m}

/-- What holds initially, and is kept by every step from a reachable state,
    holds in every reachable state. -/
theorem Reachable.induct {P : S → Prop} (init : ∀ s, m.Init s → P s)
    (step : ∀ s s', m.Reachable s → m.Step s s' → P s → P s') {s : S} (hs : m.Reachable s) :
    P s := by
  induction hs with
  | init h => exact init _ h
  | step h hst ih => exact step _ _ h hst ih

theorem Reachable.reaches {s s' : S} (hs : m.Reachable s) (h : m.Reaches s s') :
    m.Reachable s' := by
  induction h with
  | refl => exact hs
  | tail _ hst ih => exact .step ih hst

/-- The runs of `m` that stay among the states of `P`. -/
def restrict (m : Lts S) (P : S → Prop) : Lts S where
  Init s := m.Init s ∧ P s
  Step s s' := m.Step s s' ∧ P s'

theorem Reachable.of_restrict {P : S → Prop} {s : S} (h : (m.restrict P).Reachable s) :
    m.Reachable s := by
  induction h with
  | init h => exact .init h.1
  | step _ hst ih => exact .step ih hst.1

theorem Reachable.mem_of_restrict {P : S → Prop} {s : S} (h : (m.restrict P).Reachable s) :
    P s := by
  cases h with
  | init h => exact h.2
  | step _ hst => exact hst.2

/-- If no step of a run enters `P`, a run to a state of `P` has been there all along:
    `P` can be a prophecy about the state reached. -/
theorem Reachable.restrict {P : S → Prop}
    (hP : ∀ s s', m.Reachable s → m.Step s s' → P s' → P s) {s : S} (h : m.Reachable s)
    (hs : P s) : (m.restrict P).Reachable s := by
  induction h with
  | init h => exact .init ⟨h, hs⟩
  | step h hst ih => exact .step (ih (hP _ _ h hst hs)) ⟨hst, hs⟩

/-- A refinement mapping, which takes steps from reachable states to steps, takes
    reachable states to reachable ones. -/
theorem Reachable.map {n : Lts T} {f : S → T} (init : ∀ s, m.Init s → n.Init (f s))
    (step : ∀ s s', m.Reachable s → m.Step s s' → n.Step (f s) (f s')) {s : S}
    (hs : m.Reachable s) : n.Reachable (f s) := by
  induction hs with
  | init h => exact .init (init _ h)
  | step hs hst ih => exact .step ih (step _ _ hs hst)

/-! ## Termination -/

variable (m) in
/-- The states a run of `n` steps from `s` can get to. -/
inductive Steps : ℕ → S → S → Prop
  | zero {s : S} : Steps 0 s s
  | succ {n : ℕ} {s s' s'' : S} : Steps n s s' → m.Step s' s'' → Steps (n + 1) s s''

variable (m) in
/-- No step is possible. -/
def Halted (s : S) : Prop := ∀ s', ¬m.Step s s'

/-- If every step makes a state smaller, a run has no more steps than the size it
    starts with. -/
theorem Steps.add_le {size : S → ℕ} (hsize : ∀ s s', m.Step s s' → size s' < size s) {n : ℕ}
    {s s' : S} (h : m.Steps n s s') : n + size s' ≤ size s := by
  induction h with
  | zero => exact (Nat.zero_add _).le
  | succ _ hst ih =>
    have hlt := hsize _ _ hst
    omega

/-- And it can be gone on with until it halts. -/
theorem exists_halted {size : S → ℕ} (hsize : ∀ s s', m.Step s s' → size s' < size s) (s : S) :
    ∃ s', m.Reaches s s' ∧ m.Halted s' := by
  induction hn : size s using Nat.strong_induction_on generalizing s with
  | _ n ih =>
    by_cases hs : m.Halted s
    · exact ⟨s, .refl, hs⟩
    · simp only [Halted, not_forall, not_not] at hs
      obtain ⟨s₁, hst⟩ := hs
      obtain ⟨s', hr, hs'⟩ := ih _ (hn ▸ hsize _ _ hst) s₁ rfl
      exact ⟨s', .head hst hr, hs'⟩

/-! ## Simulation -/

/-- A forward simulation of `m` by `n`: the states of `m` related by `R` to
    states of `n`, and every step of `m` to a run of `n`. -/
structure Simulation (m : Lts S) (n : Lts T) (R : S → T → Prop) : Prop where
  init : ∀ s, m.Init s → ∃ t, n.Init t ∧ R s t
  step : ∀ s s' t, m.Reachable s → n.Reachable t → R s t → m.Step s s' →
    ∃ t', n.Reaches t t' ∧ R s' t'

/-- A simulated reachable state is related to a reachable one. -/
theorem Simulation.reachable {n : Lts T} {R : S → T → Prop} (h : Simulation m n R) {s : S}
    (hs : m.Reachable s) : ∃ t, n.Reachable t ∧ R s t := by
  induction hs with
  | init hs =>
    obtain ⟨t, ht, hR⟩ := h.init _ hs
    exact ⟨t, .init ht, hR⟩
  | step hs hst ih =>
    obtain ⟨t, ht, hR⟩ := ih
    obtain ⟨t', hr, hR'⟩ := h.step _ _ t hs ht hR hst
    exact ⟨t', ht.reaches hr, hR'⟩

end Lts
