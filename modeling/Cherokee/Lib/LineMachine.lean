import Cherokee.Lib.Loop
import Cherokee.Lib.Search

/-!
# Resumable line readers

A `LineMachine` consumes separator-terminated lines from the front of a buffer, one at a time, for
as long as its state is `reading` and the buffer holds a complete line. `LineMachine.drain` runs it
to rest. The state may change from line to line and decides what the next line means, so several
parsing stages in a row are one machine.

The point of the library is `LineMachine.drain_append`: a machine that is run to rest, given more
input behind what it left in its buffer, and run again, does exactly what it would have done with
all of the input at once. Where the input is cut is therefore unobservable.
-/

open Search

variable {σ ε α : Type} [DecidableEq α]

/-- A reader of separator-terminated lines. -/
structure LineMachine (σ ε α : Type) where
  /-- What terminates a line. -/
  sep : List α
  /-- A separator is not empty, so that every line consumes input. -/
  sep_ne : sep ≠ []
  /-- Whether the state asks for a line. -/
  reading : σ → Bool
  /-- The effect of a line, separator included. -/
  onLine : σ → List α → Except ε σ

namespace LineMachine

variable (M : LineMachine σ ε α)

/-- One turn: consume a complete line if the state asks for one and the buffer holds one. -/
def turn (p : σ × List α) : (σ × List α) ⊕ Except ε (σ × List α) :=
  if M.reading p.1 then
    match cutAfter M.sep p.2 with
    | some (line, rest) =>
      match M.onLine p.1 line with
      | .ok s => .inl (s, rest)
      | .error e => .inr (.error e)
    | none => .inr (.ok p)
  else .inr (.ok p)

theorem turn_of_not_reading {s : σ} {buf : List α} (h : M.reading s = false) :
    M.turn (s, buf) = .inr (.ok (s, buf)) := by
  simp [turn, h]

theorem turn_of_cut_none {s : σ} {buf : List α} (h : cutAfter M.sep buf = none) :
    M.turn (s, buf) = .inr (.ok (s, buf)) := by
  simp [turn, h]

theorem turn_of_ok {s s' : σ} {buf line rest : List α} (hr : M.reading s = true)
    (hc : cutAfter M.sep buf = some (line, rest)) (ho : M.onLine s line = .ok s') :
    M.turn (s, buf) = .inl (s', rest) := by
  simp [turn, hr, hc, ho]

theorem turn_of_error {s : σ} {e : ε} {buf line rest : List α} (hr : M.reading s = true)
    (hc : cutAfter M.sep buf = some (line, rest)) (ho : M.onLine s line = .error e) :
    M.turn (s, buf) = .inr (.error e) := by
  simp [turn, hr, hc, ho]

/-- Every turn is one of: at rest, a line read, a line refused. -/
theorem turn_cases (s : σ) (buf : List α) :
    (M.turn (s, buf) = .inr (.ok (s, buf)) ∧
      (M.reading s = false ∨ cutAfter M.sep buf = none)) ∨
    (∃ line rest, M.reading s = true ∧ cutAfter M.sep buf = some (line, rest) ∧
      ((∃ s', M.onLine s line = .ok s' ∧ M.turn (s, buf) = .inl (s', rest)) ∨
       (∃ e, M.onLine s line = .error e ∧ M.turn (s, buf) = .inr (.error e)))) := by
  cases hr : M.reading s with
  | false => exact .inl ⟨M.turn_of_not_reading hr, .inl rfl⟩
  | true =>
    cases hc : cutAfter M.sep buf with
    | none => exact .inl ⟨M.turn_of_cut_none hc, .inr rfl⟩
    | some p =>
      obtain ⟨line, rest⟩ := p
      refine .inr ⟨line, rest, rfl, rfl, ?_⟩
      cases ho : M.onLine s line with
      | ok s' => exact .inl ⟨s', rfl, M.turn_of_ok hr hc ho⟩
      | error e => exact .inr ⟨e, rfl, M.turn_of_error hr hc ho⟩

/-- A line read shortens the buffer. -/
theorem turn_decreasing : Loop.Decreasing M.turn fun p => p.2.length := by
  rintro ⟨s, buf⟩ ⟨s', buf'⟩ h
  rcases M.turn_cases s buf with ⟨ht, -⟩ | ⟨line, rest, -, hc, ⟨s'', -, ht⟩ | ⟨e, -, ht⟩⟩
  · rw [ht] at h; cases h
  · rw [ht] at h
    cases h
    have hlen := cutAfter_rest_length hc
    have hsep := List.length_pos_of_ne_nil M.sep_ne
    simp only
    omega
  · rw [ht] at h; cases h

/-- Run the machine to rest: the state it rests in and what is left of the buffer. -/
def drain (s : σ) (buf : List α) : Except ε (σ × List α) :=
  Loop.eval M.turn_decreasing (s, buf)

variable {M}

theorem drain_of_not_reading {s : σ} {buf : List α} (h : M.reading s = false) :
    M.drain s buf = .ok (s, buf) :=
  Loop.eval_of_inr (M.turn_of_not_reading h)

theorem drain_of_cut_none {s : σ} {buf : List α} (h : cutAfter M.sep buf = none) :
    M.drain s buf = .ok (s, buf) :=
  Loop.eval_of_inr (M.turn_of_cut_none h)

theorem drain_of_ok {s s' : σ} {buf line rest : List α} (hr : M.reading s = true)
    (hc : cutAfter M.sep buf = some (line, rest)) (ho : M.onLine s line = .ok s') :
    M.drain s buf = M.drain s' rest :=
  Loop.eval_of_inl (M.turn_of_ok hr hc ho)

theorem drain_of_error {s : σ} {e : ε} {buf line rest : List α} (hr : M.reading s = true)
    (hc : cutAfter M.sep buf = some (line, rest)) (ho : M.onLine s line = .error e) :
    M.drain s buf = .error e :=
  Loop.eval_of_inr (M.turn_of_error hr hc ho)

/-- **Induction over the lines a machine reads.** -/
theorem drain_induction {P : σ → List α → Except ε (σ × List α) → Prop}
    (rest : ∀ s buf, (M.reading s = false ∨ cutAfter M.sep buf = none) → P s buf (.ok (s, buf)))
    (line : ∀ s buf l r s', M.reading s = true → cutAfter M.sep buf = some (l, r) →
      M.onLine s l = .ok s' → P s' r (M.drain s' r) → P s buf (M.drain s' r))
    (refuse : ∀ s buf l r e, M.reading s = true → cutAfter M.sep buf = some (l, r) →
      M.onLine s l = .error e → P s buf (.error e)) (s : σ) (buf : List α) :
    P s buf (M.drain s buf) := by
  refine Loop.eval_induction M.turn_decreasing (P := fun p o => P p.1 p.2 o) ?_ ?_ (s, buf)
  · rintro ⟨s, buf⟩ r hturn
    rcases M.turn_cases s buf with ⟨ht, hrest⟩ | ⟨l, r', hr, hc, ⟨s'', ho, ht⟩ | ⟨e, ho, ht⟩⟩
    · rw [ht] at hturn; cases hturn
      exact rest s buf hrest
    · rw [ht] at hturn; cases hturn
    · rw [ht] at hturn; cases hturn
      exact refuse s buf l r' e hr hc ho
  · rintro ⟨s, buf⟩ ⟨s', buf'⟩ hturn hP
    rcases M.turn_cases s buf with ⟨ht, -⟩ | ⟨l, r', hr, hc, ⟨s'', ho, ht⟩ | ⟨e, ho, ht⟩⟩
    · rw [ht] at hturn; cases hturn
    · rw [ht] at hturn; cases hturn
      exact line s buf l buf' s' hr hc ho hP
    · rw [ht] at hturn; cases hturn

/-- A machine at rest does not ask for a line, or has no complete line in its buffer. -/
theorem drain_rest {s s' : σ} {buf rest : List α} (h : M.drain s buf = .ok (s', rest)) :
    M.reading s' = false ∨ ¬ M.sep <:+: rest := by
  refine drain_induction (M := M)
    (P := fun _ _ o => o = .ok (s', rest) → M.reading s' = false ∨ ¬ M.sep <:+: rest)
    ?_ ?_ ?_ s buf h
  · rintro s buf hrest ⟨⟩
    exact hrest.imp_right cutAfter_eq_none_iff.mp
  · exact fun s buf l r s' _ _ _ ih => ih
  · rintro s buf l r e _ _ _ ⟨⟩

/-- Draining twice is draining once. -/
theorem drain_of_rest {s : σ} {buf : List α} (h : M.reading s = false ∨ ¬ M.sep <:+: buf) :
    M.drain s buf = .ok (s, buf) := by
  rcases h with h | h
  · exact drain_of_not_reading h
  · exact drain_of_cut_none (cutAfter_eq_none_iff.mpr h)

/-- **Where the input is cut is unobservable**: draining `x ++ y` is draining `x`, then draining
what was left of it with `y` behind. -/
theorem drain_append (s : σ) (x y : List α) :
    M.drain s (x ++ y) = M.drain s x >>= fun p => M.drain p.1 (p.2 ++ y) := by
  refine drain_induction (M := M)
    (P := fun s x o => M.drain s (x ++ y) = o >>= fun p => M.drain p.1 (p.2 ++ y)) ?_ ?_ ?_ s x
  · intro s x _
    rfl
  · intro s x l r s' hr hc ho ih
    rw [drain_of_ok hr (cutAfter_append_of_some hc y) ho, ih]
  · intro s x l r e hr hc ho
    exact drain_of_error hr (cutAfter_append_of_some hc y) ho

/-- A complete line at the front is read first. -/
theorem drain_line {s : σ} {line rest : List α} (hr : M.reading s = true)
    (hl : ¬ M.sep <:+: line ++ M.sep.dropLast) :
    M.drain s (line ++ (M.sep ++ rest)) =
      M.onLine s (line ++ M.sep) >>= fun s' => M.drain s' rest := by
  have hc := cutAfter_of_not_isInfix hl rest
  cases ho : M.onLine s (line ++ M.sep) with
  | ok s' => rw [drain_of_ok hr hc ho]; rfl
  | error e => rw [drain_of_error hr hc ho]; rfl

variable (M)

/-- The machine reads these lines one after the other. -/
inductive Reads : σ → List (List α) → σ → Prop where
  | nil (s : σ) : Reads s [] s
  | cons {s s' s'' : σ} {line : List α} {lines : List (List α)} (reading : M.reading s = true)
      (clear : ¬ M.sep <:+: line ++ M.sep.dropLast) (read : M.onLine s (line ++ M.sep) = .ok s')
      (rest : Reads s' lines s'') : Reads s (line :: lines) s''

variable {M}

omit [DecidableEq α] in
theorem Reads.append {s s' s'' : σ} {xs ys : List (List α)} (hx : M.Reads s xs s')
    (hy : M.Reads s' ys s'') : M.Reads s (xs ++ ys) s'' := by
  induction hx with
  | nil => exact hy
  | cons reading clear read _ ih => exact .cons reading clear read (ih hy)

/-- Lines that are read are drained from the front. -/
theorem Reads.drain {s s' : σ} {lines : List (List α)} (h : M.Reads s lines s')
    (rest : List α) :
    M.drain s (lines.flatMap (· ++ M.sep) ++ rest) = M.drain s' rest := by
  induction h with
  | nil => rfl
  | cons reading clear read _ ih =>
    rw [List.flatMap_cons, List.append_assoc, List.append_assoc, drain_line reading clear, read]
    exact ih

omit [DecidableEq α] in
/-- The lines that have been read determine the state. -/
theorem Reads.unique {s t t' : σ} {lines : List (List α)} (h : M.Reads s lines t)
    (h' : M.Reads s lines t') : t = t' := by
  induction h with
  | nil s =>
    cases h'
    rfl
  | cons reading clear read _ ih =>
    cases h' with
    | cons _ _ read' rest' =>
      obtain rfl := Except.ok.inj (read.symm.trans read')
      exact ih rest'

/-- The lines that are read first leave the machine reading the others. -/
theorem Reads.drain_beginning {s s' : σ} {lines : List (List α)} (h : M.Reads s lines s')
    {x y : List α} (hxy : x ++ y = lines.flatMap (· ++ M.sep)) (hy : y ≠ []) :
    ∃ done todo t rest, lines = done ++ todo ∧ todo ≠ [] ∧ M.Reads s done t ∧
      M.drain s x = .ok (t, rest) ∧ rest ++ y = todo.flatMap (· ++ M.sep) := by
  induction h generalizing x with
  | nil s => exact absurd (List.append_eq_nil_iff.mp hxy).2 hy
  | @cons s s₁ s' line lines reading clear read hrest ih =>
    rw [List.flatMap_cons] at hxy
    rcases List.append_eq_append_iff.mp hxy with ⟨z, hz, htail⟩ | ⟨x', rfl, htail⟩
    · by_cases hnil : z = []
      · -- the input ends with the line
        subst hnil
        rw [List.append_nil] at hz
        obtain ⟨done, todo, t, rest, rfl, htodo, hdone, hdrain, hleft⟩ := ih (x := []) htail
        refine ⟨line :: done, todo, t, rest, rfl, htodo, .cons reading clear read hdone, ?_, hleft⟩
        have hfront : M.drain s (line ++ (M.sep ++ [])) = _ := drain_line reading clear
        rw [read, List.append_nil] at hfront
        rw [← hz, hfront]
        exact hdrain
      · -- the input ends within the line, which is not complete
        refine ⟨[], line :: lines, s, x, rfl, List.cons_ne_nil _ _, .nil s, ?_, hxy⟩
        have hpre : x <+: line ++ M.sep.dropLast := by
          rw [← List.dropLast_append_of_ne_nil M.sep_ne, hz, List.dropLast_append_of_ne_nil hnil]
          exact List.prefix_append _ _
        exact drain_of_rest (.inr fun hi => clear (hi.trans hpre.isInfix))
    · obtain ⟨done, todo, t, rest, rfl, htodo, hdone, hdrain, hleft⟩ := ih htail.symm
      refine ⟨line :: done, todo, t, rest, rfl, htodo, .cons reading clear read hdone, ?_, hleft⟩
      rw [List.append_assoc, drain_line reading clear, read]
      exact hdrain

end LineMachine
