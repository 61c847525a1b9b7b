import Mathlib.Data.Nat.Notation
import Mathlib.Tactic.Common

/-!
# While loops with a measure

A `while (1)` loop is given by its turn `step : σ → σ ⊕ ρ`: a turn either hands the next state on
or leaves the loop with a result. `Loop.iter step n s` runs at most `n` turns, so that it is
structurally recursive and evaluates in the kernel. When a measure drops at every turn that goes
on, the number of turns allowed is irrelevant (`Loop.iter_of_lt`), the loop leaves
(`Loop.run_isSome`), and `Loop.eval`, the result it leaves with, satisfies the equations of the
unbounded loop (`Loop.eval_of_inl`, `Loop.eval_of_inr`) and its induction rule
(`Loop.eval_induction`).

A loop whose measure may also stand still can fail to leave. `Loop.turns` is the state behind a
number of turns, and such a loop has a state from which on the measure does not change any more
(`Loop.exists_stall`).
-/

namespace Loop

variable {σ ρ : Type}

/-- At most `n` turns of the loop; `none` when they did not suffice. -/
def iter (step : σ → σ ⊕ ρ) : ℕ → σ → Option ρ
  | 0, _ => none
  | n + 1, s =>
    match step s with
    | .inl s' => iter step n s'
    | .inr r => some r

/-- The measure `m` drops at every turn that goes on. -/
def Decreasing (step : σ → σ ⊕ ρ) (m : σ → ℕ) : Prop :=
  ∀ s s', step s = .inl s' → m s' < m s

/-- The loop, allowed one more turn than its measure. -/
def run (step : σ → σ ⊕ ρ) (m : σ → ℕ) (s : σ) : Option ρ :=
  iter step (m s + 1) s

section Measure

variable {step : σ → σ ⊕ ρ} {m : σ → ℕ} (hm : Decreasing step m)

include hm

/-- Two bounds above the measure give the same run. -/
theorem iter_of_lt {n k : ℕ} {s : σ} (hn : m s < n) (hk : m s < k) :
    iter step n s = iter step k s := by
  induction n generalizing k s with
  | zero => omega
  | succ n ih =>
    obtain ⟨k, rfl⟩ : ∃ k', k = k' + 1 := ⟨k - 1, by omega⟩
    unfold iter
    cases hs : step s with
    | inl s' =>
      have hlt := hm s s' hs
      exact ih (by omega) (by omega)
    | inr r => rfl

/-- **The loop equation**: a run is one turn and then the run of the state it hands on. -/
theorem run_eq (s : σ) :
    run step m s = match step s with
      | .inl s' => run step m s'
      | .inr r => some r := by
  rw [run, iter]
  cases hs : step s with
  | inl s' =>
    have hlt := hm s s' hs
    exact iter_of_lt hm hlt (Nat.lt_succ_self _)
  | inr r => rfl

theorem run_of_inl {s s' : σ} (h : step s = .inl s') : run step m s = run step m s' := by
  rw [run_eq hm, h]

theorem run_of_inr {s : σ} {r : ρ} (h : step s = .inr r) : run step m s = some r := by
  rw [run_eq hm, h]

/-- A loop with a measure leaves. -/
theorem run_isSome (s : σ) : (run step m s).isSome := by
  induction hn : m s using Nat.strongRecOn generalizing s with
  | _ n ih =>
    cases hs : step s with
    | inl s' =>
      rw [run_of_inl hm hs]
      exact ih (m s') (hn ▸ hm s s' hs) s' rfl
    | inr r => rw [run_of_inr hm hs]; rfl

end Measure

/-- The result a loop with a measure leaves with. -/
def eval {step : σ → σ ⊕ ρ} {m : σ → ℕ} (hm : Decreasing step m) (s : σ) : ρ :=
  (run step m s).get (run_isSome hm s)

section Eval

variable {step : σ → σ ⊕ ρ} {m : σ → ℕ} {hm : Decreasing step m}

theorem run_eq_eval (hm : Decreasing step m) (s : σ) : run step m s = some (eval hm s) :=
  (Option.some_get _).symm

theorem eval_of_inl {s s' : σ} (h : step s = .inl s') : eval hm s = eval hm s' := by
  have hrun := run_of_inl hm h
  rw [run_eq_eval hm, run_eq_eval hm] at hrun
  exact Option.some.inj hrun

theorem eval_of_inr {s : σ} {r : ρ} (h : step s = .inr r) : eval hm s = r := by
  have hrun := run_of_inr hm h
  rw [run_eq_eval hm] at hrun
  exact Option.some.inj hrun

/-- **Induction over the turns of a loop**, on the result it leaves with. -/
theorem eval_induction (hm : Decreasing step m) {P : σ → ρ → Prop}
    (done : ∀ s r, step s = .inr r → P s r)
    (turn : ∀ s s', step s = .inl s' → P s' (eval hm s') → P s (eval hm s')) (s : σ) :
    P s (eval hm s) := by
  induction hn : m s using Nat.strongRecOn generalizing s with
  | _ n ih =>
    cases hs : step s with
    | inl s' =>
      rw [eval_of_inl hs]
      exact turn s s' hs (ih (m s') (hn ▸ hm s s' hs) s' rfl)
    | inr r => rw [eval_of_inr hs]; exact done s r hs

end Eval

/-! ### Loops that do not leave -/

/-- The state behind `n` turns that all go on. -/
def turns (step : σ → σ ⊕ ρ) : ℕ → σ → Option σ
  | 0, s => some s
  | n + 1, s =>
    match step s with
    | .inl s' => turns step n s'
    | .inr _ => none

section Turns

variable {step : σ → σ ⊕ ρ}

/-- The allowed turns do not suffice exactly when all of them go on. -/
theorem iter_eq_none_iff {n : ℕ} {s : σ} :
    iter step n s = none ↔ ∃ s', turns step n s = some s' := by
  induction n generalizing s with
  | zero => exact ⟨fun _ => ⟨s, rfl⟩, fun _ => rfl⟩
  | succ n ih =>
    unfold iter turns
    cases step s with
    | inl s' => exact ih
    | inr r => simp

/-- What happens behind `k` turns. -/
theorem iter_of_turns {k : ℕ} {s s' : σ} (h : turns step k s = some s') (n : ℕ) :
    iter step (k + n) s = iter step n s' := by
  induction k generalizing s with
  | zero =>
    cases h
    rw [Nat.zero_add]
  | succ k ih =>
    unfold turns at h
    rw [Nat.succ_add, iter]
    cases hs : step s with
    | inl t =>
      rw [hs] at h
      exact ih h
    | inr r =>
      rw [hs] at h
      cases h

/-- A loop that has left is not changed by further turns. -/
theorem iter_mono {n : ℕ} {s : σ} {r : ρ} (h : iter step n s = some r) (k : ℕ) :
    iter step (n + k) s = some r := by
  induction n generalizing s with
  | zero => cases h
  | succ n ih =>
    unfold iter at h
    rw [Nat.succ_add, iter]
    cases hs : step s with
    | inl t =>
      rw [hs] at h
      exact ih h
    | inr t =>
      rw [hs] at h
      exact h

theorem turns_add {k n : ℕ} {s s' : σ} (h : turns step k s = some s') :
    turns step (k + n) s = turns step n s' := by
  induction k generalizing s with
  | zero =>
    cases h
    rw [Nat.zero_add]
  | succ k ih =>
    unfold turns at h
    rw [Nat.succ_add, turns]
    cases hs : step s with
    | inl t =>
      rw [hs] at h
      exact ih h
    | inr r =>
      rw [hs] at h
      cases h

/-- A loop that does not leave does not leave behind any of its turns. -/
theorem never_of_turns {k : ℕ} {s s' : σ} (h : turns step k s = some s')
    (hnever : ∀ n, iter step n s = none) (n : ℕ) : iter step n s' = none := by
  rw [← iter_of_turns h n]
  exact hnever (k + n)

/-- A turn that leaves the state in a set keeps the loop in it for ever. -/
theorem iter_eq_none_of_forall {P : σ → Prop} (h : ∀ s, P s → ∃ s', step s = .inl s' ∧ P s') {s : σ}
    (hs : P s) (n : ℕ) : iter step n s = none := by
  induction n generalizing s with
  | zero => rfl
  | succ n ih =>
    obtain ⟨s', hstep, hs'⟩ := h s hs
    rw [iter, hstep]
    exact ih hs'

/-- A loop that does not leave behind some of its turns does not leave. -/
theorem never_of_turns_never {k : ℕ} {s s' : σ} (h : turns step k s = some s')
    (hnever : ∀ n, iter step n s' = none) (n : ℕ) : iter step n s = none := by
  cases hn : iter step n s with
  | none => rfl
  | some r =>
    have hleft := iter_mono hn k
    rw [Nat.add_comm, iter_of_turns h, hnever] at hleft
    cases hleft

/-- What every turn keeps, and a measure that no turn raises, along any number of turns. -/
theorem turns_invariant {I : σ → Prop} {m : σ → ℕ}
    (h : ∀ s s', I s → step s = .inl s' → I s' ∧ m s' ≤ m s) {n : ℕ} {s s' : σ} (hs : I s)
    (hn : turns step n s = some s') : I s' ∧ m s' ≤ m s := by
  induction n generalizing s with
  | zero =>
    cases hn
    exact ⟨hs, Nat.le_refl _⟩
  | succ n ih =>
    unfold turns at hn
    cases hstep : step s with
    | inl t =>
      rw [hstep] at hn
      obtain ⟨ht, hle⟩ := h s t hs hstep
      obtain ⟨hs', hle'⟩ := ih ht hn
      exact ⟨hs', Nat.le_trans hle' hle⟩
    | inr r =>
      rw [hstep] at hn
      cases hn

/-- **A loop that does not leave stalls**: a measure that no turn raises stands still from some
state on. -/
theorem exists_stall {I : σ → Prop} {m : σ → ℕ}
    (h : ∀ s s', I s → step s = .inl s' → I s' ∧ m s' ≤ m s) {s : σ} (hs : I s)
    (hnever : ∀ n, iter step n s = none) :
    ∃ n s', turns step n s = some s' ∧ I s' ∧ ∀ k t, turns step k s' = some t → m t = m s' := by
  induction hm : m s using Nat.strongRecOn generalizing s with
  | _ x ih =>
    by_cases hstill : ∀ k t, turns step k s = some t → m t = m s
    · exact ⟨0, s, rfl, hs, hstill⟩
    · -- the measure drops once more, and the rest of the loop stalls
      push Not at hstill
      obtain ⟨k, t, hk, hne⟩ := hstill
      obtain ⟨ht, hle⟩ := turns_invariant h hs hk
      obtain ⟨n, s', hn, hs', hrest⟩ :=
        ih (m t) (by omega) ht (never_of_turns hk hnever) rfl
      exact ⟨k + n, s', (turns_add hk).trans hn, hs', hrest⟩

end Turns

end Loop
