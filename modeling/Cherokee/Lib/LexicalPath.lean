import Mathlib.Data.List.Infix
import Mathlib.Data.Nat.Notation

/-!
# Lexical resolution of relative paths

A relative path is resolved component by component from the left: an empty component and the
component `.` stay where they are, `..` goes up and any other goes down. The path stays inside the
directory it starts from when no beginning of it goes up more often than down.

* `LexicalPath.inside_iff`: that is so when the depth, computed from the left, never drops below the
  directory.
-/

namespace LexicalPath

variable {α : Type} [DecidableEq α]

/-- What a component of a path does. -/
inductive Move where
  | stay
  | up
  | down
deriving DecidableEq

/-- The move of a component. -/
def move (dot : α) (component : List α) : Move :=
  if component = [] ∨ component = [dot] then .stay
  else if component = [dot, dot] then .up
  else .down

/-- The moves of a path. -/
def moves (sep dot : α) (path : List α) : List Move := (path.splitOn sep).map (move dot)

/-- The depth behind the moves; `none` when they go up from depth `0`. -/
def depth : ℕ → List Move → Option ℕ
  | d, [] => some d
  | d, .stay :: ms => depth d ms
  | d, .down :: ms => depth (d + 1) ms
  | 0, .up :: _ => none
  | d + 1, .up :: ms => depth d ms

/-- **The path never leaves**: no beginning of it goes up more often than down. -/
def Inside (sep dot : α) (path : List α) : Prop :=
  ∀ p, p <+: moves sep dot path → p.count .up ≤ p.count .down

/-- A beginning of a list is empty, or the first element and a beginning of the rest. -/
theorem forall_isPrefix_cons {m : Move} {ms : List Move} {P : List Move → Prop} :
    (∀ p, p <+: m :: ms → P p) ↔ P [] ∧ ∀ p, p <+: ms → P (m :: p) := by
  constructor
  · intro h
    exact ⟨h [] List.nil_prefix, fun p hp => h (m :: p) (List.cons_prefix_cons.mpr ⟨rfl, hp⟩)⟩
  · rintro ⟨hnil, hcons⟩ p hp
    rcases List.prefix_cons_iff.mp hp with rfl | ⟨q, rfl, hq⟩
    · exact hnil
    · exact hcons q hq

/-- The depth is there to be computed when no beginning of the moves goes up too often. -/
theorem depth_isSome_iff {d : ℕ} {ms : List Move} :
    (depth d ms).isSome ↔ ∀ p, p <+: ms → p.count .up ≤ d + p.count .down := by
  induction d, ms using depth.induct with
  | case1 d =>
    rw [depth]
    simp [List.prefix_nil]
  | case2 d ms ih =>
    rw [depth, ih, forall_isPrefix_cons]
    simp
  | case3 d ms ih =>
    rw [depth, ih, forall_isPrefix_cons, List.count_nil, and_iff_right (Nat.zero_le _)]
    refine forall₂_congr fun p _ => ?_
    rw [List.count_cons_of_ne (by decide), List.count_cons_self]
    omega
  | case4 ms =>
    rw [depth, forall_isPrefix_cons]
    refine iff_of_false nofun fun h => ?_
    have hup := h.2 [] List.nil_prefix
    rw [List.count_cons_self, List.count_cons_of_ne (by decide)] at hup
    exact absurd hup (Nat.not_succ_le_zero _)
  | case5 d ms ih =>
    rw [depth, ih, forall_isPrefix_cons, List.count_nil, and_iff_right (Nat.zero_le _)]
    refine forall₂_congr fun p _ => ?_
    rw [List.count_cons_self, List.count_cons_of_ne (by decide)]
    omega

/-- **Whether a path stays inside can be computed from the left.** -/
theorem inside_iff {sep dot : α} {path : List α} :
    Inside sep dot path ↔ (depth 0 (moves sep dot path)).isSome := by
  rw [depth_isSome_iff]
  simp only [Nat.zero_add]
  exact Iff.rfl

instance (sep dot : α) (path : List α) : Decidable (Inside sep dot path) :=
  decidable_of_iff _ inside_iff.symm

end LexicalPath
