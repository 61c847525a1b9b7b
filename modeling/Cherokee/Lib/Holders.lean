import Mathlib.Data.List.Nodup
import Mathlib.Logic.Function.Basic

/-!
# Things that are held by threads

A system that keeps a list of the things in use may be realised by threads each of which holds one
of them, or none. `Held l f`: the list `l` has an entry for each thread that holds something, and no
other entries, in any order.

* `Held.give`, `Held.drop`: a thread comes to hold something, and lets go of it.
* `Held.eq_of_nodup`: where no two entries have one key, no two threads hold things with one key.
-/

/-- The list has an entry for each thread that holds something. -/
def Held {T A : Type*} (l : List A) (f : T → Option A) : Prop :=
  ∃ ts : List T, ts.Nodup ∧ (∀ t, t ∈ ts ↔ f t ≠ none) ∧ l.Perm (ts.filterMap f)

namespace Held

variable {T A : Type*} {l l' : List A} {f : T → Option A} {t : T} {a : A}

/-- No thread holds anything. -/
theorem nil (h : ∀ t, f t = none) : Held ([] : List A) f :=
  ⟨[], List.nodup_nil, fun t => iff_of_false List.not_mem_nil (not_not_intro (h t)), .nil⟩

/-- The order of the list does not matter. -/
theorem perm (h : Held l f) (hl : l'.Perm l) : Held l' f := by
  obtain ⟨ts, hnodup, hts, hperm⟩ := h
  exact ⟨ts, hnodup, hts, hl.trans hperm⟩

/-- The entry of a thread, and the entries of the others. -/
theorem split [DecidableEq T] (h : Held l f) (ht : f t = some a) :
    ∃ ts : List T, t ∉ ts ∧ ts.Nodup ∧ (∀ u, u ∈ ts ↔ u ≠ t ∧ f u ≠ none) ∧
      l.Perm (a :: ts.filterMap f) := by
  obtain ⟨ts, hnodup, hts, hperm⟩ := h
  have hmem : t ∈ ts := (hts t).mpr (by rw [ht]; exact Option.some_ne_none a)
  refine ⟨ts.erase t, hnodup.not_mem_erase, hnodup.erase t, fun u => ?_, hperm.trans ?_⟩
  · rw [hnodup.mem_erase_iff, hts u]
  · rw [← List.filterMap_cons_some ht]
    exact (List.perm_cons_erase hmem).filterMap f

/-- What a thread holds is in the list. -/
theorem mem [DecidableEq T] (h : Held l f) (ht : f t = some a) : a ∈ l := by
  obtain ⟨ts, -, -, -, hperm⟩ := h.split ht
  exact hperm.mem_iff.mpr List.mem_cons_self

/-- Threads that are not the one which goes on hold what they held. -/
theorem filterMap_update [DecidableEq T] {ts : List T} (ht : t ∉ ts) (o : Option A) :
    ts.filterMap (Function.update f t o) = ts.filterMap f := by
  refine List.filterMap_congr fun u hu => Function.update_of_ne ?_ _ _
  rintro rfl
  exact ht hu

/-- **A thread comes to hold something.** -/
theorem give [DecidableEq T] (h : Held l f) (ht : f t = none) (a : A) :
    Held (a :: l) (Function.update f t (some a)) := by
  obtain ⟨ts, hnodup, hts, hperm⟩ := h
  have hnot : t ∉ ts := fun hmem => (hts t).mp hmem ht
  refine ⟨t :: ts, List.nodup_cons.mpr ⟨hnot, hnodup⟩, fun u => ?_, ?_⟩
  · by_cases hu : u = t
    · subst hu
      simp
    · rw [Function.update_of_ne hu, List.mem_cons, hts u, or_iff_right hu]
  · rw [List.filterMap_cons_some (Function.update_self t (some a) f), filterMap_update hnot]
    exact hperm.cons a

/-- **A thread lets go of what it holds.** -/
theorem drop [DecidableEq T] [DecidableEq A] (h : Held l f) (ht : f t = some a) :
    Held (l.erase a) (Function.update f t none) := by
  obtain ⟨ts, hnot, hnodup, hts, hperm⟩ := h.split ht
  refine ⟨ts, hnodup, fun u => ?_, ?_⟩
  · by_cases hu : u = t
    · subst hu
      simp [hnot]
    · rw [Function.update_of_ne hu, hts u, and_iff_right hu]
  · rw [filterMap_update hnot]
    exact (hperm.erase a).trans (by rw [List.erase_cons_head])

/-- Two lists of things of which no thread holds one of each. -/
theorem append {f' : T → Option A} (h : Held l f) (h' : Held l' f')
    (hor : ∀ t, f t = none ∨ f' t = none) :
    Held (l ++ l') fun t => (f t).or (f' t) := by
  obtain ⟨ts, hnodup, hts, hperm⟩ := h
  obtain ⟨ts', hnodup', hts', hperm'⟩ := h'
  refine ⟨ts ++ ts', List.nodup_append.mpr ⟨hnodup, hnodup', ?_⟩, fun t => ?_, ?_⟩
  · rintro t ht _ ht' rfl
    exact (hor t).elim ((hts t).mp ht) ((hts' t).mp ht')
  · rw [List.mem_append, hts, hts', ne_eq, ne_eq, ne_eq, Option.or_eq_none_iff, not_and_or]
  · rw [List.filterMap_append]
    have hleft : ts.filterMap (fun t => (f t).or (f' t)) = ts.filterMap f :=
      List.filterMap_congr fun t ht => by
        rw [(hor t).resolve_left ((hts t).mp ht), Option.or_none]
    have hright : ts'.filterMap (fun t => (f t).or (f' t)) = ts'.filterMap f' :=
      List.filterMap_congr fun t ht => by
        rw [(hor t).resolve_right ((hts' t).mp ht), Option.none_or]
    rw [hleft, hright]
    exact hperm.append hperm'

/-- **No two threads hold things with one key.** -/
theorem eq_of_nodup [DecidableEq T] {K : Type*} {key : A → K} (h : Held l f)
    (hnodup : (l.map key).Nodup) {t' : T} {a' : A} (ht : f t = some a) (ht' : f t' = some a')
    (hkey : key a = key a') : t = t' := by
  -- otherwise the entry of `t'` is among the others, with the key of the one of `t`
  by_contra hne
  obtain ⟨ts, -, -, hts, hperm⟩ := h.split ht
  have hother : a' ∈ ts.filterMap f :=
    List.mem_filterMap.mpr
      ⟨t', (hts t').mpr ⟨Ne.symm hne, by rw [ht']; exact Option.some_ne_none a'⟩, ht'⟩
  have hcons := (hperm.map key).nodup_iff.mp hnodup
  rw [List.map_cons, List.nodup_cons, hkey] at hcons
  exact hcons.1 (List.mem_map_of_mem hother)

end Held
