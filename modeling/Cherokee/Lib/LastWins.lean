import Mathlib.Data.List.Nodup
import Mathlib.Logic.Function.Basic

/-!
# Maps in which the last entry wins

A table of options is filled from a list of pairs, one after the other, and a later pair replaces an
earlier one with the same key. `LastWins.enter` fills a table; a key has an entry exactly when the
table had one or a pair names it (`enter_ne_none_iff`), and pairs with distinct keys may come in any
order (`enter_perm`).
-/

namespace LastWins

variable {κ ν : Type} [DecidableEq κ]

/-- Enter pairs into a table, from left to right. -/
def enter (m : κ → Option ν) (ps : List (κ × ν)) : κ → Option ν :=
  ps.foldl (fun m p => Function.update m p.1 (some p.2)) m

@[simp] theorem enter_nil (m : κ → Option ν) : enter m [] = m := rfl

theorem enter_cons (m : κ → Option ν) (p : κ × ν) (ps : List (κ × ν)) :
    enter m (p :: ps) = enter (Function.update m p.1 (some p.2)) ps := rfl

theorem enter_append (m : κ → Option ν) (ps qs : List (κ × ν)) :
    enter m (ps ++ qs) = enter (enter m ps) qs := List.foldl_append

/-- A key has an entry when it had one before, or when a pair names it. -/
theorem enter_ne_none_iff {m : κ → Option ν} {ps : List (κ × ν)} {k : κ} :
    enter m ps k ≠ none ↔ m k ≠ none ∨ k ∈ ps.map Prod.fst := by
  induction ps generalizing m with
  | nil => simp
  | cons p ps ih =>
    rw [enter_cons, ih, List.map_cons, List.mem_cons, Function.update_apply]
    by_cases hk : k = p.1
    · simp [hk]
    · simp [hk]

/-- **Pairs with distinct keys may be entered in any order.** -/
theorem enter_perm (m : κ → Option ν) {ps qs : List (κ × ν)} (h : ps.Perm qs)
    (hk : (ps.map Prod.fst).Nodup) : enter m ps = enter m qs := by
  refine h.foldl_eq' (fun p hp q hq m => ?_) m
  -- two pairs are the same one, or have different keys and commute
  by_cases hpq : p = q
  · rw [hpq]
  · have hne : p.1 ≠ q.1 := fun heq => hpq (List.inj_on_of_nodup_map hk hp hq heq)
    exact Function.update_comm hne _ _ m

end LastWins
