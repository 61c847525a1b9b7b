import Cherokee.Lib.Transition
import Mathlib.Tactic.Choose

/-!
# Forward simulations

`M.Simulates N G R`: every step of `M` that meets the condition `G` is answered by a run of `N`,
from related states to related states. The run may be empty, where `N` does not look at what has
changed, and it may have several steps, where `M` does in one what `N` does in several.

* `Machine.Simulates.run`: runs are answered by runs.
* `Machine.Simulates.follows`: the answers can be given while the run goes on, without knowing what
  comes next, so what has happened in `N` so far stays and only grows.

`M.Projects N G H view shown` is the case in which a part of the state of `M` is a state of `N`, and
a step of `M` is a step of `N` on it or leaves it alone.

* `Machine.Projects.run`: the steps that are shown make a run of `N`, in the same order.
* `Machine.Projects.simulates`: what answers `N` answers `M`.
-/

universe u v u' v'

namespace Machine

variable {State : Type u} {Label : Type v} {State' : Type u'} {Label' : Type v'}

/-- Runs one after the other. -/
theorem run_append (M : Machine State Label) (s : State) (ls ls' : List Label) :
    M.run s (ls ++ ls') = (M.run s ls).bind fun t => M.run t ls' := by
  induction ls generalizing s with
  | nil => rfl
  | cons l ls ih =>
    rw [List.cons_append, run, run]
    cases M.step s l with
    | none => rfl
    | some t => exact ih t

theorem run_singleton (M : Machine State Label) (s : State) (l : Label) :
    M.run s [l] = M.step s l := by
  rw [run]
  cases M.step s l with
  | none => rfl
  | some t => rfl

/-- A run and a run behind it. -/
theorem run_trans {M : Machine State Label} {s t t' : State} {ls ls' : List Label}
    (h : M.run s ls = some t) (h' : M.run t ls' = some t') : M.run s (ls ++ ls') = some t' := by
  rw [run_append, h]
  exact h'

/-- The beginning of a run that meets the condition meets it. -/
theorem along_of_append {M : Machine State Label} {G : State → Label → Prop} {s : State}
    {ls ls' : List Label} (h : M.Along G s (ls ++ ls')) : M.Along G s ls := by
  induction ls generalizing s with
  | nil => trivial
  | cons l ls ih =>
    obtain ⟨hG, htail⟩ := h
    refine ⟨hG, ?_⟩
    cases hstep : M.step s l with
    | none => trivial
    | some t =>
      rw [hstep] at htail
      exact ih htail

/-- A condition on labels alone. -/
theorem along_of_labels {M : Machine State Label} {P : Label → Prop} {ls : List Label}
    (h : ∀ l ∈ ls, P l) (s : State) : M.Along (fun _ l => P l) s ls := by
  induction ls generalizing s with
  | nil => trivial
  | cons l ls ih =>
    refine ⟨h l List.mem_cons_self, ?_⟩
    cases M.step s l with
    | none => trivial
    | some t => exact ih (fun l' hl' => h l' (List.mem_cons_of_mem l hl')) t

/-- A run of one step. -/
theorem along_singleton {M : Machine State Label} {G : State → Label → Prop} {s : State} {l : Label}
    (h : G s l) : M.Along G s [l] := by
  refine ⟨h, ?_⟩
  cases M.step s l with
  | none => trivial
  | some t => trivial

/-- Every step of `M` that meets the condition is answered by a run of `N`. -/
structure Simulates (M : Machine State Label) (N : Machine State' Label')
    (G : State → Label → Prop) (R : State → State' → Prop) : Prop where
  start : R M.start N.start
  step : ∀ s l t a, R s a → G s l → M.step s l = some t → ∃ ms b, N.run a ms = some b ∧ R t b

namespace Simulates

variable {M : Machine State Label} {N : Machine State' Label'} {G : State → Label → Prop}
  {R : State → State' → Prop}

/-- **Runs are answered by runs.** -/
theorem run (h : M.Simulates N G R) {ls : List Label} {s t : State} {a : State'} (hR : R s a)
    (hrun : M.run s ls = some t) (halong : M.Along G s ls) :
    ∃ ms b, N.run a ms = some b ∧ R t b := by
  induction ls generalizing s a with
  | nil =>
    obtain rfl := Option.some.inj hrun
    exact ⟨[], a, rfl, hR⟩
  | cons l ls ih =>
    obtain ⟨u, hu, hrest⟩ := Option.bind_eq_some_iff.mp hrun
    obtain ⟨hG, htail⟩ := halong
    rw [hu] at htail
    obtain ⟨ms, b, hms, hb⟩ := h.step s l u a hR hG hu
    obtain ⟨ms', b', hms', hb'⟩ := ih hb hrest htail
    exact ⟨ms ++ ms', b', run_trans hms hms', hb'⟩

/-- The labels that answer a run from related states `s` and `a`, when `answer` gives those for each
step and the state behind them. A run that stops at a label that is not enabled is answered so
far. -/
def followed (M : Machine State Label) (answer : State → Label → State' → List Label' × State') :
    State → State' → List Label → List Label'
  | _, _, [] => []
  | s, a, l :: ls =>
    match M.step s l with
    | none => []
    | some t => (answer s l a).1 ++ followed M answer t (answer s l a).2 ls

/-- What answers a run is the beginning of what answers it with more steps behind. -/
theorem followed_append (answer : State → Label → State' → List Label' × State') (s : State)
    (a : State') (ls ls' : List Label) :
    followed M answer s a ls <+: followed M answer s a (ls ++ ls') := by
  induction ls generalizing s a with
  | nil => exact List.nil_prefix
  | cons l ls ih =>
    rw [List.cons_append, followed, followed]
    cases M.step s l with
    | none => exact List.prefix_rfl
    | some t => exact (List.prefix_append_right_inj _).mpr (ih t _)

/-- Answers that are right for each step are right for a run: the states stay related. -/
theorem run_followed {answer : State → Label → State' → List Label' × State'}
    (hanswer : ∀ s l a t, R s a → G s l → M.step s l = some t →
      N.run a (answer s l a).1 = some (answer s l a).2 ∧ R t (answer s l a).2)
    {ls : List Label} {s t : State} {a : State'} (hR : R s a) (hrun : M.run s ls = some t)
    (halong : M.Along G s ls) : ∃ b, N.run a (followed M answer s a ls) = some b ∧ R t b := by
  induction ls generalizing s a with
  | nil =>
    obtain rfl := Option.some.inj hrun
    exact ⟨a, rfl, hR⟩
  | cons l ls ih =>
    obtain ⟨u, hu, hrest⟩ := Option.bind_eq_some_iff.mp hrun
    obtain ⟨hG, htail⟩ := halong
    rw [hu] at htail
    obtain ⟨hms, hu'⟩ := hanswer s l a u hR hG hu
    obtain ⟨b, hrest', hb⟩ := ih hu' hrest htail
    refine ⟨b, ?_, hb⟩
    rw [followed, hu]
    exact run_trans hms hrest'

/-- **Runs are answered as they go on.** One choice of answers does for all runs: each of them
reaches a related state, and the answer to a run begins with the answers to its beginnings. -/
theorem follows (h : M.Simulates N G R) :
    ∃ F : List Label → List Label', (∀ ls ls', F ls <+: F (ls ++ ls')) ∧
      ∀ ls s, M.run M.start ls = some s → M.Along G M.start ls →
        ∃ a, N.run N.start (F ls) = some a ∧ R s a := by
  -- the answer to a step is chosen from the states before it alone
  have hanswer (s : State) (l : Label) (a : State') : ∃ p : List Label' × State', ∀ t, R s a →
      G s l → M.step s l = some t → N.run a p.1 = some p.2 ∧ R t p.2 := by
    by_cases hstep : ∃ t, R s a ∧ G s l ∧ M.step s l = some t
    · obtain ⟨t, hR, hG, ht⟩ := hstep
      obtain ⟨ms, b, hms, hb⟩ := h.step s l t a hR hG ht
      refine ⟨(ms, b), fun t' _ _ ht' => ?_⟩
      obtain rfl := Option.some.inj (ht.symm.trans ht')
      exact ⟨hms, hb⟩
    · exact ⟨([], a), fun t hR hG ht => absurd ⟨t, hR, hG, ht⟩ hstep⟩
  choose answer hchosen using hanswer
  exact ⟨followed M answer M.start N.start, followed_append answer _ _,
    fun ls s hs hls => run_followed hchosen h.start hs hls⟩

end Simulates

/-- A step of `M` whose label is shown is a step of `N` on what is seen of the state, and any other
step leaves that alone. The invariant is of use for this in `M` only. -/
structure Projects (M : Machine State Label) (N : Machine State' Label') (G : State → Label → Prop)
    (H : State' → Label' → Prop) (I : State → Prop) (view : State → State')
    (shown : Label → Option Label') : Prop where
  start : I M.start
  start_view : view M.start = N.start
  kept : ∀ s l t, I s → G s l → M.step s l = some t → I t
  hidden : ∀ s l t, I s → G s l → M.step s l = some t → shown l = none → view t = view s
  step : ∀ s l t m, I s → G s l → M.step s l = some t → shown l = some m →
    H (view s) m ∧ N.step (view s) m = some (view t)

namespace Projects

variable {M : Machine State Label} {N : Machine State' Label'} {G : State → Label → Prop}
  {H : State' → Label' → Prop} {I : State → Prop} {view : State → State'}
  {shown : Label → Option Label'}

/-- **The steps that are shown make a run.** -/
theorem run (h : M.Projects N G H I view shown) {ls : List Label} {s t : State} (hs : I s)
    (hrun : M.run s ls = some t) (halong : M.Along G s ls) :
    I t ∧ N.run (view s) (ls.filterMap shown) = some (view t) ∧
      N.Along H (view s) (ls.filterMap shown) := by
  induction ls generalizing s with
  | nil =>
    obtain rfl := Option.some.inj hrun
    exact ⟨hs, rfl, trivial⟩
  | cons l ls ih =>
    obtain ⟨u, hu, hrest⟩ := Option.bind_eq_some_iff.mp hrun
    obtain ⟨hG, htail⟩ := halong
    rw [hu] at htail
    obtain ⟨ht, hview, hH⟩ := ih (h.kept s l u hs hG hu) hrest htail
    refine ⟨ht, ?_⟩
    -- a step that is not shown leaves the view, so the run of `N` begins with the next one
    cases hl : shown l with
    | none =>
      rw [List.filterMap_cons_none hl, ← h.hidden s l u hs hG hu hl]
      exact ⟨hview, hH⟩
    | some m =>
      obtain ⟨hm, hstep⟩ := h.step s l u m hs hG hu hl
      rw [List.filterMap_cons_some hl]
      refine ⟨?_, hm, ?_⟩
      · rw [Machine.run, hstep]
        exact hview
      · rw [hstep]
        exact hH

/-- **A system that answers `N` answers `M`.** -/
theorem simulates {State'' Label'' : Type*} {P : Machine State'' Label''}
    {R : State' → State'' → Prop} (h : M.Projects N G H I view shown) (hsim : N.Simulates P H R) :
    M.Simulates P G fun s a => I s ∧ R (view s) a where
  start := ⟨h.start, h.start_view ▸ hsim.start⟩
  step s l t a hR hG hstep := by
    obtain ⟨hI, hR⟩ := hR
    have hkept := h.kept s l t hI hG hstep
    cases hl : shown l with
    | none => exact ⟨[], a, rfl, hkept, h.hidden s l t hI hG hstep hl ▸ hR⟩
    | some m =>
      obtain ⟨hH, hnext⟩ := h.step s l t m hI hG hstep hl
      obtain ⟨ms, b, hms, hb⟩ := hsim.step _ m _ a hR hH hnext
      exact ⟨ms, b, hms, hkept, hb⟩

end Projects

end Machine
