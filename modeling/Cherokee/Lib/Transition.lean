import Mathlib.Logic.Basic

/-!
# Labelled transition systems

A `Machine` has one initial state and a partial step function on labels; what the environment
decides is in the label. `Machine.Reachable G` are the states reached by runs all of whose steps
meet the condition `G`, which may look at the state before the step and at its label.

* `Machine.Reachable.invariant`: what holds initially and is kept by every step that meets the
  condition holds of every state reached.
* `Machine.run_invariant`: what every step keeps, a run keeps, from whatever state it starts.
* `Machine.reachable_of_run`: a run that is computed reaches its state.
-/

universe u v

/-- A deterministic labelled transition system with one initial state. -/
structure Machine (State : Type u) (Label : Type v) where
  /-- The unique initial state. -/
  start : State
  /-- The state behind a step; `none` when the label is not enabled. -/
  step : State → Label → Option State

namespace Machine

variable {State : Type u} {Label : Type v} (M : Machine State Label)

/-- The states reached from the initial one by steps that all meet the condition. -/
inductive Reachable (G : State → Label → Prop) : State → Prop where
  | start : Reachable G M.start
  | step {s t : State} (l : Label) (before : Reachable G s) (guard : G s l)
      (next : M.step s l = some t) : Reachable G t

variable {M} {G H : State → Label → Prop}

/-- The condition on all steps of a run that has none. -/
def anyStep (_ : State) (_ : Label) : Prop := True

/-- An invariant holds of every state reached. -/
theorem Reachable.invariant {I : State → Prop} (hstart : I M.start)
    (hstep : ∀ s l t, M.Reachable G s → I s → G s l → M.step s l = some t → I t) {s : State}
    (h : M.Reachable G s) : I s := by
  induction h with
  | start => exact hstart
  | step l before guard next ih => exact hstep _ l _ before ih guard next

/-- A stronger condition reaches fewer states. -/
theorem Reachable.mono (hGH : ∀ s l, G s l → H s l) {s : State} (h : M.Reachable G s) :
    M.Reachable H s := by
  induction h with
  | start => exact .start
  | step l _ guard next ih => exact .step l ih (hGH _ l guard) next

/-! ### Computed runs -/

variable (M)

/-- The state behind a list of labels, when all of them are enabled. -/
def run : State → List Label → Option State
  | s, [] => some s
  | s, l :: ls => (M.step s l).bind fun t => run t ls

/-- Every step along a list of labels meets the condition. -/
def Along (G : State → Label → Prop) : State → List Label → Prop
  | _, [] => True
  | s, l :: ls => G s l ∧ match M.step s l with
    | some t => Along G t ls
    | none => True

/-- Whether the steps of a run meet a decidable condition can be computed. -/
instance decidableAlong [∀ s l, Decidable (G s l)] :
    (s : State) → (ls : List Label) → Decidable (M.Along G s ls)
  | _, [] => .isTrue trivial
  | s, l :: ls =>
    have : Decidable (match M.step s l with | some t => M.Along G t ls | none => True) :=
      match M.step s l with
      | some t => decidableAlong t ls
      | none => .isTrue trivial
    inferInstanceAs (Decidable (G s l ∧ _))

variable {M}

theorem along_anyStep (s : State) (ls : List Label) : M.Along anyStep s ls := by
  induction ls generalizing s with
  | nil => trivial
  | cons l ls ih =>
    refine ⟨trivial, ?_⟩
    cases M.step s l with
    | none => trivial
    | some t => exact ih t

/-- What is kept by every step that meets the condition is kept by a run of such steps. -/
theorem run_invariant {I : State → Prop} (hstep : ∀ s l t, I s → G s l → M.step s l = some t → I t)
    {ls : List Label} {s t : State} (hs : I s) (hrun : M.run s ls = some t)
    (halong : M.Along G s ls) : I t := by
  induction ls generalizing s with
  | nil =>
    obtain rfl := Option.some.inj hrun
    exact hs
  | cons l ls ih =>
    obtain ⟨u, hu, hrest⟩ := Option.bind_eq_some_iff.mp hrun
    obtain ⟨hG, htail⟩ := halong
    rw [hu] at htail
    exact ih (hstep s l u hs hG hu) hrest htail

/-- A run that is computed reaches its state. -/
theorem reachable_of_run {ls : List Label} {s t : State} (hs : M.Reachable G s)
    (hrun : M.run s ls = some t) (halong : M.Along G s ls) : M.Reachable G t :=
  run_invariant (fun _ l _ hu hG hnext => .step l hu hG hnext) hs hrun halong

end Machine
