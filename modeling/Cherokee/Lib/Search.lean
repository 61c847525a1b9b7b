import Mathlib.Data.List.Infix
import Mathlib.Tactic.Common

/-!
# First occurrences in lists

`Search.firstAt p s` is the position of the first occurrence of the pattern `p` in `s`. It is
characterised by `firstAt_eq_some` and `firstAt_eq_none_iff`, and it is stable under more input
arriving behind (`firstAt_append_of_some`), which is what a reader of a growing buffer relies on.
`Search.cutAfter sep s` cuts `s` behind the first occurrence of a separator.
-/

namespace Search

variable {α : Type} [DecidableEq α]

/-- Position of the first occurrence of `p` in a list. -/
def firstAt (p : List α) : List α → Option ℕ
  | [] => if p.isPrefixOf [] then some 0 else none
  | x :: xs => if p.isPrefixOf (x :: xs) then some 0 else (firstAt p xs).map (· + 1)

theorem firstAt_cons (p : List α) (x : α) (xs : List α) :
    firstAt p (x :: xs) =
      if p <+: x :: xs then some 0 else (firstAt p xs).map (· + 1) := by
  simp only [firstAt, List.isPrefixOf_iff_prefix]

theorem firstAt_of_isPrefix {p s : List α} (h : p <+: s) : firstAt p s = some 0 := by
  cases s with
  | nil => simp [firstAt, List.isPrefixOf_iff_prefix, h]
  | cons x xs => rw [firstAt_cons, if_pos h]

theorem firstAt_cons_of_not_isPrefix {p : List α} {x : α} {xs : List α} (h : ¬ p <+: x :: xs) :
    firstAt p (x :: xs) = (firstAt p xs).map (· + 1) := by
  rw [firstAt_cons, if_neg h]

/-- The pattern stands at the position found, and at none before it. -/
theorem firstAt_spec {p s : List α} {i : ℕ} (h : firstAt p s = some i) :
    p <+: s.drop i ∧ ∀ j < i, ¬ p <+: s.drop j := by
  induction s generalizing i with
  | nil =>
    simp only [firstAt, List.isPrefixOf_iff_prefix] at h
    split at h
    · next hp =>
      obtain rfl : 0 = i := Option.some.inj h
      exact ⟨hp, fun j hj => absurd hj (Nat.not_lt_zero j)⟩
    · exact absurd h (by simp)
  | cons x xs ih =>
    by_cases hp : p <+: x :: xs
    · rw [firstAt_of_isPrefix hp] at h
      obtain rfl : 0 = i := Option.some.inj h
      exact ⟨hp, fun j hj => absurd hj (Nat.not_lt_zero j)⟩
    · rw [firstAt_cons_of_not_isPrefix hp] at h
      obtain ⟨k, hk, rfl⟩ := Option.map_eq_some_iff.mp h
      obtain ⟨hpre, hmin⟩ := ih hk
      refine ⟨hpre, fun j hj => ?_⟩
      cases j with
      | zero => exact hp
      | succ j => exact hmin j (by omega)

theorem firstAt_length_le {p s : List α} {i : ℕ} (h : firstAt p s = some i) :
    i + p.length ≤ s.length := by
  obtain ⟨hpre, hmin⟩ := firstAt_spec h
  have hlen := hpre.length_le
  rw [List.length_drop] at hlen
  by_cases hi : i ≤ s.length
  · omega
  · -- a position past the end would mean `p` is empty, and then it stands at `0`
    have hp : p = [] := List.length_eq_zero_iff.mp (by omega)
    exact absurd (hp ▸ List.nil_prefix) (hmin 0 (by omega))

/-- A position where the pattern stands, with none before it, is the one found. -/
theorem firstAt_eq_some {p s : List α} {i : ℕ} (hi : i ≤ s.length) (hpre : p <+: s.drop i)
    (hmin : ∀ j < i, ¬ p <+: s.drop j) : firstAt p s = some i := by
  induction s generalizing i with
  | nil =>
    obtain rfl : i = 0 := by simpa using hi
    exact firstAt_of_isPrefix hpre
  | cons x xs ih =>
    cases i with
    | zero => exact firstAt_of_isPrefix hpre
    | succ i =>
      rw [firstAt_cons_of_not_isPrefix (hmin 0 (Nat.succ_pos i)),
        ih (by simpa using hi) hpre (fun j hj => hmin (j + 1) (by omega))]
      rfl

/-- Nothing is found exactly when the pattern does not occur. -/
theorem firstAt_eq_none_iff {p s : List α} : firstAt p s = none ↔ ¬ p <:+: s := by
  induction s with
  | nil =>
    by_cases hp : p <+: []
    · rw [firstAt_of_isPrefix hp]
      simp [hp.isInfix]
    · have hi : ¬ p <:+: [] := fun h => hp (by rw [List.infix_nil.mp h])
      simp [firstAt, List.isPrefixOf_iff_prefix, hp, hi]
  | cons x xs ih =>
    by_cases hp : p <+: x :: xs
    · rw [firstAt_of_isPrefix hp]
      simp [hp.isInfix]
    · rw [firstAt_cons_of_not_isPrefix hp, Option.map_eq_none_iff, ih, List.infix_cons_iff]
      simp [hp]

theorem exists_firstAt {p s : List α} (h : p <:+: s) : ∃ i, firstAt p s = some i :=
  Option.ne_none_iff_exists'.mp fun hnone => firstAt_eq_none_iff.mp hnone h

/-- **Stability**: what was found stays the first occurrence when more input arrives. -/
theorem firstAt_append_of_some {p s : List α} {i : ℕ} (h : firstAt p s = some i) (t : List α) :
    firstAt p (s ++ t) = some i := by
  obtain ⟨hpre, hmin⟩ := firstAt_spec h
  have hlen := firstAt_length_le h
  refine firstAt_eq_some (by rw [List.length_append]; omega) ?_ fun j hj => ?_
  · rw [List.drop_append_of_le_length (by omega)]
    exact hpre.trans (List.prefix_append _ _)
  · rw [List.drop_append_of_le_length (by omega)]
    intro hj'
    exact hmin j hj (List.prefix_of_prefix_length_le hj' (List.prefix_append _ _)
      (by rw [List.length_drop]; omega))

/-- A pattern that does not occur in `s` followed by all of the pattern but its last element is
first found right behind `s`. -/
theorem firstAt_append_self {p s : List α} (h : ¬ p <:+: s ++ p.dropLast) (t : List α) :
    firstAt p (s ++ (p ++ t)) = some s.length := by
  refine firstAt_eq_some (by simp) (by simp) fun j hj hpre => h ?_
  have hp : p ≠ [] := by
    rintro rfl
    exact h (List.nil_infix)
  -- an earlier occurrence ends before the last element of the pattern's own occurrence
  have hdrop : (s ++ (p ++ t)).drop j = s.drop j ++ (p ++ t) :=
    List.drop_append_of_le_length (by omega)
  rw [hdrop, ← List.dropLast_append_getLast hp, List.append_assoc, ← List.append_assoc] at hpre
  rw [List.dropLast_append_getLast hp] at hpre
  have hfit : p <+: s.drop j ++ p.dropLast :=
    List.prefix_of_prefix_length_le hpre (List.prefix_append _ _) (by
      have := List.length_pos_of_ne_nil hp
      simp only [List.length_append, List.length_drop, List.length_dropLast]
      omega)
  exact hfit.isInfix.trans ⟨s.take j, [], by simp [← List.append_assoc]⟩

/-- What was found splits the list, and stands nowhere before. -/
theorem firstAt_split {p s : List α} {i : ℕ} (hp : p ≠ []) (h : firstAt p s = some i) :
    s = s.take i ++ (p ++ s.drop (i + p.length)) ∧ ¬ p <:+: s.take i ++ p.dropLast := by
  obtain ⟨⟨t, ht⟩, hmin⟩ := firstAt_spec h
  have hlen := firstAt_length_le h
  have hsplit : s = s.take i ++ (p ++ s.drop (i + p.length)) := by
    rw [← List.drop_drop, ← ht, List.drop_left, ht, List.take_append_drop]
  refine ⟨hsplit, ?_⟩
  rintro ⟨a, b, hab⟩
  have hpos := List.length_pos_of_ne_nil hp
  -- an earlier occurrence would begin before the one found
  have hlt : a.length < i := by
    have := congrArg List.length hab
    simp only [List.length_append, List.length_dropLast, List.length_take] at this
    omega
  refine hmin a.length hlt ?_
  have hpre : s.take i ++ p.dropLast <+: s := by
    conv_rhs => rw [hsplit]
    exact List.prefix_append_right_inj _ |>.mpr
      ((List.dropLast_prefix p).trans (List.prefix_append p _))
  obtain ⟨c, hc⟩ := hpre
  refine ⟨b ++ c, ?_⟩
  rw [← hc, ← hab, List.append_assoc, List.append_assoc, List.drop_left]

/-! ### A single element -/

omit [DecidableEq α] in
theorem singleton_infix_iff {a : α} {s : List α} : [a] <:+: s ↔ a ∈ s := by
  constructor
  · intro h
    exact h.subset List.mem_cons_self
  · intro h
    obtain ⟨p, t, rfl⟩ := List.append_of_mem h
    exact ⟨p, t, by simp⟩

theorem firstAt_singleton_eq_none_iff {a : α} {s : List α} : firstAt [a] s = none ↔ a ∉ s := by
  rw [firstAt_eq_none_iff, singleton_infix_iff]

/-- A search passes what does not hold the first element of the pattern. -/
theorem firstAt_skip {a : α} {p s : List α} (h : a ∉ s) (t : List α) :
    firstAt (a :: p) (s ++ t) = (firstAt (a :: p) t).map (· + s.length) := by
  induction s with
  | nil => simp
  | cons x s ih =>
    rw [List.mem_cons, not_or] at h
    have hno : ¬ a :: p <+: x :: (s ++ t) := fun hpre => h.1 (List.cons_prefix_cons.mp hpre).1
    rw [List.cons_append, firstAt_cons_of_not_isPrefix hno, ih h.2, Option.map_map]
    rfl

/-- An element is found where it first stands. -/
theorem firstAt_singleton_append {a : α} {s : List α} (h : a ∉ s) (t : List α) :
    firstAt [a] (s ++ a :: t) = some s.length := by
  have := firstAt_append_self (p := [a]) (s := s) (by simpa [singleton_infix_iff] using h) t
  simpa using this

/-- A list splits at the first occurrence of an element in one way. -/
theorem append_cons_inj {a : α} {s s' t t' : List α} (hs : a ∉ s) (hs' : a ∉ s')
    (h : s ++ a :: t = s' ++ a :: t') : s = s' ∧ t = t' := by
  have hfirst := firstAt_singleton_append hs t
  rw [h, firstAt_singleton_append hs'] at hfirst
  obtain ⟨rfl, hcons⟩ := List.append_inj h (Option.some.inj hfirst).symm
  exact ⟨rfl, (List.cons.inj hcons).2⟩

omit [DecidableEq α] in
/-- A pattern does not reach across an element it does not contain. -/
theorem infix_append_cons {p s t : List α} {c : α} (hc : c ∉ p) (h : p <:+: s ++ c :: t) :
    p <:+: s ∨ p <:+: t := by
  obtain ⟨a, b, hab⟩ := h
  rw [List.append_eq_append_iff] at hab
  rcases hab with ⟨x, rfl, -⟩ | ⟨x, hs, ht⟩
  · exact .inl ⟨a, x, rfl⟩
  · cases x with
    | nil => exact .inl ⟨a, [], by simpa using hs⟩
    | cons y x =>
      obtain ⟨rfl, rfl⟩ := List.cons.inj ht
      rw [List.append_eq_append_iff] at hs
      rcases hs with ⟨z, -, hp⟩ | ⟨z, -, hz⟩
      · exact absurd (by rw [hp]; simp) hc
      · cases z with
        | nil => exact absurd (by rw [← show c :: x = p from hz]; exact List.mem_cons_self) hc
        | cons w z =>
          obtain ⟨-, rfl⟩ := List.cons.inj hz
          exact .inr ⟨z, b, rfl⟩

/-- The element found splits the list; it does not occur before. -/
theorem firstAt_singleton_spec {a : α} {s : List α} {i : ℕ} (h : firstAt [a] s = some i) :
    a ∉ s.take i ∧ ∃ t, s.drop i = a :: t := by
  obtain ⟨⟨t, ht⟩, hmin⟩ := firstAt_spec h
  refine ⟨fun hm => ?_, t, ht.symm⟩
  obtain ⟨j, hj, hget⟩ := List.mem_iff_getElem.mp hm
  rw [List.length_take] at hj
  rw [List.getElem_take] at hget
  refine hmin j (by omega) ⟨s.drop (j + 1), ?_⟩
  rw [← hget, List.singleton_append, List.getElem_cons_drop]

/-! ### Cutting at a separator -/

/-- Cut behind the first occurrence of `sep`: the piece with its separator, and the rest. -/
def cutAfter (sep s : List α) : Option (List α × List α) :=
  (firstAt sep s).map fun i => (s.take (i + sep.length), s.drop (i + sep.length))

theorem cutAfter_eq_none_iff {sep s : List α} : cutAfter sep s = none ↔ ¬ sep <:+: s := by
  rw [cutAfter, Option.map_eq_none_iff, firstAt_eq_none_iff]

theorem cutAfter_append {sep s line rest : List α} (h : cutAfter sep s = some (line, rest)) :
    line ++ rest = s := by
  obtain ⟨i, -, hi⟩ := Option.map_eq_some_iff.mp h
  obtain ⟨rfl, rfl⟩ := Prod.mk.inj hi
  exact List.take_append_drop _ _

theorem cutAfter_isSuffix {sep s line rest : List α} (h : cutAfter sep s = some (line, rest)) :
    sep <:+ line := by
  obtain ⟨i, hf, hi⟩ := Option.map_eq_some_iff.mp h
  obtain ⟨rfl, rfl⟩ := Prod.mk.inj hi
  obtain ⟨t, ht⟩ := (firstAt_spec hf).1
  have hlen := firstAt_length_le hf
  refine ⟨s.take i, ?_⟩
  rw [List.take_add, ← ht, List.take_left]

theorem cutAfter_line_length {sep s line rest : List α} (h : cutAfter sep s = some (line, rest)) :
    sep.length ≤ line.length := by
  obtain ⟨i, hf, hi⟩ := Option.map_eq_some_iff.mp h
  obtain ⟨rfl, rfl⟩ := Prod.mk.inj hi
  have := firstAt_length_le hf
  rw [List.length_take]
  omega

theorem cutAfter_rest_length {sep s line rest : List α} (h : cutAfter sep s = some (line, rest)) :
    rest.length + sep.length ≤ s.length := by
  have hline := cutAfter_line_length h
  rw [← cutAfter_append h, List.length_append]
  omega

/-- A cut is not changed by more input behind. -/
theorem cutAfter_append_of_some {sep s line rest : List α}
    (h : cutAfter sep s = some (line, rest)) (t : List α) :
    cutAfter sep (s ++ t) = some (line, rest ++ t) := by
  obtain ⟨i, hf, hi⟩ := Option.map_eq_some_iff.mp h
  obtain ⟨rfl, rfl⟩ := Prod.mk.inj hi
  have hlen := firstAt_length_le hf
  rw [cutAfter, firstAt_append_of_some hf]
  simp only [Option.map_some, Option.some.injEq, Prod.mk.injEq]
  exact ⟨List.take_append_of_le_length hlen, List.drop_append_of_le_length hlen⟩

/-- A piece without the separator, followed by the separator, is what is cut. -/
theorem cutAfter_of_not_isInfix {sep line : List α} (h : ¬ sep <:+: line ++ sep.dropLast)
    (rest : List α) :
    cutAfter sep (line ++ (sep ++ rest)) = some (line ++ sep, rest) := by
  rw [cutAfter, firstAt_append_self h]
  simp only [Option.map_some, Option.some.injEq, Prod.mk.injEq]
  constructor
  · rw [← List.append_assoc]
    exact List.take_left' (by simp)
  · rw [← List.append_assoc]
    exact List.drop_left' (by simp)

/-- The rest of a cut reaches at most as far back as the input that completed the separator. -/
theorem cutAfter_rest_length_of_not_isInfix {sep s t line rest : List α} (hs : ¬ sep <:+: s)
    (h : cutAfter sep (s ++ t) = some (line, rest)) : rest.length < t.length := by
  obtain ⟨i, hf, hi⟩ := Option.map_eq_some_iff.mp h
  obtain ⟨rfl, rfl⟩ := Prod.mk.inj hi
  have hlen := firstAt_length_le hf
  rw [List.length_append] at hlen
  have hlt : s.length < i + sep.length := by
    by_contra hle
    refine hs (List.IsInfix.trans ?_ (List.drop_suffix i s).isInfix)
    have hpre := (firstAt_spec hf).1
    rw [List.drop_append_of_le_length (by omega)] at hpre
    exact (List.prefix_of_prefix_length_le hpre (List.prefix_append _ _)
      (by rw [List.length_drop]; omega)).isInfix
  rw [List.length_drop, List.length_append]
  omega

end Search
