import Mathlib.Data.List.Infix
import Mathlib.Tactic.Common

/-!
# Two writers of one stream

A history is a list of what two writers, named by a `Bool`, have written to one stream. `merged` is
the stream and `writtenBy` what one of them has written. Writers that do not overlap, so that
neither writes between two writes of the other, have written one after the other
(`merged_of_apart`).
-/

namespace Interleave

variable {α : Type}

/-- The stream. -/
def merged (zs : List (Bool × List α)) : List α := zs.flatMap Prod.snd

/-- What one of the writers has written. -/
def writtenBy (i : Bool) (zs : List (Bool × List α)) : List α :=
  zs.flatMap fun z => if z.1 = i then z.2 else []

/-- Where a writer writes, the other one has not begun or writes no more. -/
def Apart (zs : List (Bool × List α)) : Prop :=
  ∀ xs i d ys, zs = xs ++ (i, d) :: ys → d ≠ [] → writtenBy (!i) xs = [] ∨ writtenBy (!i) ys = []

@[simp] theorem merged_cons (z : Bool × List α) (zs : List (Bool × List α)) :
    merged (z :: zs) = z.2 ++ merged zs := rfl

@[simp] theorem merged_append (xs ys : List (Bool × List α)) :
    merged (xs ++ ys) = merged xs ++ merged ys := List.flatMap_append

@[simp] theorem writtenBy_append (i : Bool) (xs ys : List (Bool × List α)) :
    writtenBy i (xs ++ ys) = writtenBy i xs ++ writtenBy i ys := List.flatMap_append

theorem writtenBy_cons_self (i : Bool) (d : List α) (zs : List (Bool × List α)) :
    writtenBy i ((i, d) :: zs) = d ++ writtenBy i zs := by
  unfold writtenBy
  rw [List.flatMap_cons, if_pos rfl]

theorem writtenBy_cons_other (i : Bool) (d : List α) (zs : List (Bool × List α)) :
    writtenBy (!i) ((i, d) :: zs) = writtenBy (!i) zs := by
  unfold writtenBy
  rw [List.flatMap_cons, if_neg (show ¬ i = !i by cases i <;> decide), List.nil_append]

/-- A stream that one of the writers leaves alone is the other's. -/
theorem merged_of_writtenBy_eq_nil {i : Bool} {zs : List (Bool × List α)}
    (h : writtenBy (!i) zs = []) : merged zs = writtenBy i zs := by
  induction zs with
  | nil => rfl
  | cons z zs ih =>
    obtain ⟨j, d⟩ := z
    by_cases hj : j = i
    · subst hj
      rw [writtenBy_cons_other] at h
      rw [merged_cons, writtenBy_cons_self, ih h]
    · obtain rfl : j = !i := by cases i <;> cases j <;> simp_all
      have hother := writtenBy_cons_other (!i) d zs
      rw [Bool.not_not] at hother
      rw [writtenBy_cons_self] at h
      obtain ⟨rfl, hrest⟩ := List.append_eq_nil_iff.mp h
      rw [merged_cons, hother, ih hrest, List.nil_append]

/-- The first thing a writer has written. -/
theorem exists_first {i : Bool} {zs : List (Bool × List α)} (h : writtenBy i zs ≠ []) :
    ∃ xs d ys, zs = xs ++ (i, d) :: ys ∧ d ≠ [] ∧ writtenBy i xs = [] := by
  induction zs with
  | nil => exact absurd rfl h
  | cons z zs ih =>
    obtain ⟨j, d⟩ := z
    by_cases hfirst : j = i ∧ d ≠ []
    · obtain ⟨rfl, hd⟩ := hfirst
      exact ⟨[], d, zs, rfl, hd, rfl⟩
    · have hnil : writtenBy i [(j, d)] = [] := by
        unfold writtenBy
        rw [List.flatMap_singleton]
        by_cases hj : j = i
        · rw [if_pos hj]
          exact not_not.mp fun hd => hfirst ⟨hj, hd⟩
        · exact if_neg hj
      have hcons : writtenBy i ((j, d) :: zs) = writtenBy i zs := by
        change writtenBy i ([(j, d)] ++ zs) = _
        rw [writtenBy_append, hnil, List.nil_append]
      obtain ⟨xs, e, ys, rfl, he, hxs⟩ := ih (hcons ▸ h)
      refine ⟨(j, d) :: xs, e, ys, rfl, he, ?_⟩
      change writtenBy i ([(j, d)] ++ xs) = _
      rw [writtenBy_append, hnil, hxs]
      rfl

/-- **Writers that do not overlap have written one after the other.** -/
theorem merged_of_apart {zs : List (Bool × List α)} (h : Apart zs) :
    merged zs = writtenBy true zs ++ writtenBy false zs ∨
      merged zs = writtenBy false zs ++ writtenBy true zs := by
  suffices hsuff : ∃ i, merged zs = writtenBy i zs ++ writtenBy (!i) zs by
    obtain ⟨i, hi⟩ := hsuff
    cases i with
    | true => exact .inl hi
    | false => exact .inr hi
  by_cases ht : writtenBy true zs = []
  · exact ⟨false, by rw [merged_of_writtenBy_eq_nil (i := false) ht, Bool.not_false, ht,
      List.append_nil]⟩
  -- the first writer to write, and the first thing the other writes behind it
  obtain ⟨i, xs, d, ys, rfl, hd, hi, hother⟩ : ∃ i xs d ys, zs = xs ++ (i, d) :: ys ∧ d ≠ [] ∧
      writtenBy i xs = [] ∧ writtenBy (!i) xs = [] := by
    obtain ⟨xs, d, ys, rfl, hd, hxs⟩ := exists_first ht
    by_cases hf : writtenBy false xs = []
    · exact ⟨true, xs, d, ys, rfl, hd, hxs, hf⟩
    · obtain ⟨xs', e, ys', rfl, he, hxs'⟩ := exists_first hf
      refine ⟨false, xs', e, ys' ++ (true, d) :: ys, by simp, he, hxs', ?_⟩
      rw [writtenBy_append] at hxs
      exact (List.append_eq_nil_iff.mp hxs).1
  have hmerged : merged xs = [] := by rw [merged_of_writtenBy_eq_nil hother, hi]
  refine ⟨i, ?_⟩
  rw [merged_append, merged_cons, writtenBy_append, writtenBy_append, writtenBy_cons_self,
    writtenBy_cons_other, hmerged, hi, hother, List.nil_append, List.nil_append, List.nil_append]
  -- the other writer writes nothing, or everything behind the last piece of the first
  by_cases hnone : writtenBy (!i) ys = []
  · rw [hnone, List.append_nil, merged_of_writtenBy_eq_nil hnone]
  · obtain ⟨us, e, vs, rfl, he, hus⟩ := exists_first hnone
    have hdone : writtenBy i vs = [] := by
      have hcase := h (xs ++ (i, d) :: us) (!i) e vs (by simp) he
      rw [Bool.not_not, writtenBy_append, writtenBy_cons_self] at hcase
      refine hcase.resolve_left fun hnil => hd ?_
      exact (List.append_eq_nil_iff.mp (List.append_eq_nil_iff.mp hnil).2).1
    have hother' := writtenBy_cons_other (!i) e vs
    rw [Bool.not_not] at hother'
    have hvs : merged vs = writtenBy (!i) vs := by
      refine merged_of_writtenBy_eq_nil ?_
      rwa [Bool.not_not]
    rw [merged_append, merged_cons, writtenBy_append, writtenBy_append,
      writtenBy_cons_self, hother', hus, hdone, merged_of_writtenBy_eq_nil hus, hvs]
    simp

end Interleave
