import Mathlib.Data.List.Infix
import Mathlib.Tactic.Common

/-!
# Scanning a stream for a delimiter

`DelimScan.scan D` reads a buffer from the front and releases its elements one by one, up to the
first place where the delimiter `D` may stand: there it stops, with `found` set when the whole
delimiter is in the buffer, and without it when too little has arrived to decide. What is released
can be passed on for good; what is held must wait for more input.

The scan is a function of the stream alone. It releases everything before the first occurrence of
the delimiter and nothing behind (`scan_found_iff`, `scan_not_prefix_of_lt`), and continuing from
what was held with more input is scanning all of the input at once (`scan_append`).
-/

namespace DelimScan

variable {α : Type}

/-- Where a scan stopped. -/
structure Result (α : Type) where
  /-- The elements passed on. -/
  released : List α
  /-- What is left of the buffer. -/
  held : List α
  /-- The delimiter stands at the front of `held`. -/
  found : Bool
deriving DecidableEq, Repr

/-- Release one more element in front. -/
def Result.release (x : α) (r : Result α) : Result α :=
  { r with released := x :: r.released }

/-- Release a list of elements in front. -/
def Result.releaseAll (p : List α) (r : Result α) : Result α :=
  { r with released := p ++ r.released }

@[simp] theorem Result.release_released (x : α) (r : Result α) :
    (r.release x).released = x :: r.released := rfl

@[simp] theorem Result.release_held (x : α) (r : Result α) : (r.release x).held = r.held := rfl

@[simp] theorem Result.release_found (x : α) (r : Result α) : (r.release x).found = r.found := rfl

@[simp] theorem Result.releaseAll_released (p : List α) (r : Result α) :
    (r.releaseAll p).released = p ++ r.released := rfl

@[simp] theorem Result.releaseAll_held (p : List α) (r : Result α) :
    (r.releaseAll p).held = r.held := rfl

theorem Result.releaseAll_releaseAll (p q : List α) (r : Result α) :
    (r.releaseAll q).releaseAll p = r.releaseAll (p ++ q) := by
  simp [Result.releaseAll]

@[simp] theorem Result.releaseAll_found (p : List α) (r : Result α) :
    (r.releaseAll p).found = r.found := rfl

variable [DecidableEq α]

/-- Scan a buffer for the delimiter `D`. -/
def scan (D : List α) : List α → Result α
  | [] => ⟨[], [], false⟩
  | x :: xs =>
    if D.head? = some x then
      if (x :: xs).length < D.length then ⟨[], x :: xs, false⟩
      else if D.isPrefixOf (x :: xs) then ⟨[], x :: xs, true⟩
      else (scan D xs).release x
    else (scan D xs).release x

variable {D : List α}

@[simp] theorem scan_nil : scan D [] = ⟨[], [], false⟩ := rfl

/-- At an element that does not begin the delimiter the scan releases it. -/
theorem scan_cons_of_ne {x : α} {xs : List α} (h : D.head? ≠ some x) :
    scan D (x :: xs) = (scan D xs).release x := by
  rw [scan, if_neg h]

/-- Where too little has arrived to decide, the scan holds. -/
theorem scan_cons_of_short {x : α} {xs : List α} (h : D.head? = some x)
    (hlen : (x :: xs).length < D.length) : scan D (x :: xs) = ⟨[], x :: xs, false⟩ := by
  rw [scan, if_pos h, if_pos hlen]

/-- Where the delimiter stands, the scan stops. -/
theorem scan_of_isPrefix {s : List α} (hD : D ≠ []) (h : D <+: s) : scan D s = ⟨[], s, true⟩ := by
  obtain ⟨d, D', rfl⟩ := List.exists_cons_of_ne_nil hD
  obtain ⟨t, rfl⟩ := h
  rw [List.cons_append, scan, if_pos (by simp), if_neg (by simp), if_pos]
  rw [List.isPrefixOf_iff_prefix]
  exact ⟨t, rfl⟩

/-- Where enough has arrived and the delimiter does not stand, the scan releases. -/
theorem scan_cons_of_not_isPrefix {x : α} {xs : List α} (hlen : D.length ≤ (x :: xs).length)
    (h : ¬ D <+: x :: xs) : scan D (x :: xs) = (scan D xs).release x := by
  rw [scan]
  split
  · rw [if_neg (by omega), if_neg (by rwa [List.isPrefixOf_iff_prefix])]
  · rfl

/-- A stretch in which the delimiter cannot begin is released as a whole. -/
theorem scan_append_of_not_mem {p : List α} (h : ∀ d, D.head? = some d → d ∉ p) (s : List α) :
    scan D (p ++ s) = (scan D s).releaseAll p := by
  induction p with
  | nil => rfl
  | cons x p ih =>
    have hx : D.head? ≠ some x := fun hx => h x hx List.mem_cons_self
    rw [List.cons_append, scan_cons_of_ne hx,
      ih fun d hd hm => h d hd (List.mem_cons_of_mem x hm)]
    rfl

/-- Nothing is lost: what is released, followed by what is held, is the buffer. -/
theorem scan_released_append_held (D s : List α) :
    (scan D s).released ++ (scan D s).held = s := by
  induction s with
  | nil => rfl
  | cons x xs ih =>
    rw [scan]
    split_ifs <;> simp [ih]

/-- A scan that finds the delimiter stops in front of it. -/
theorem scan_found_isPrefix {s : List α} (h : (scan D s).found = true) : D <+: (scan D s).held := by
  induction s with
  | nil => simp at h
  | cons x xs ih =>
    rw [scan] at h ⊢
    split_ifs at h ⊢ with hx hlen hp
    · exact List.isPrefixOf_iff_prefix.mp hp
    · exact ih h
    · exact ih h

/-- The delimiter stands at no position that was released. -/
theorem scan_not_prefix_of_lt {s : List α} (hD : D ≠ []) {j : ℕ}
    (hj : j < (scan D s).released.length) : ¬ D <+: s.drop j := by
  induction s generalizing j with
  | nil => simp at hj
  | cons x xs ih =>
    have hstep : (scan D (x :: xs)).released = x :: (scan D xs).released →
        ¬ D <+: x :: xs → ¬ D <+: (x :: xs).drop j := by
      intro hrel hx
      cases j with
      | zero => exact hx
      | succ j => exact ih (by rw [hrel] at hj; simpa using hj)
    by_cases hx : D.head? = some x
    · by_cases hlen : (x :: xs).length < D.length
      · rw [scan_cons_of_short hx hlen] at hj
        simp at hj
      · by_cases hp : D <+: x :: xs
        · rw [scan_of_isPrefix hD hp] at hj
          simp at hj
        · exact hstep (by rw [scan_cons_of_not_isPrefix (by omega) hp]; rfl) hp
    · refine hstep (by rw [scan_cons_of_ne hx]; rfl) fun hp => hx ?_
      obtain ⟨d, D', rfl⟩ := List.exists_cons_of_ne_nil hD
      simpa using (List.cons_prefix_cons.mp hp).1

/-- While the delimiter has not been found, what is held is empty, or begins like the delimiter
and is shorter. -/
theorem scan_held_of_not_found {s : List α} (h : (scan D s).found = false) :
    (scan D s).held = [] ∨
      ((scan D s).held.head? = D.head? ∧ (scan D s).held.length < D.length) := by
  induction s with
  | nil => exact .inl rfl
  | cons x xs ih =>
    rw [scan] at h ⊢
    split_ifs at h ⊢ with hx hlen hp
    · exact .inr ⟨by simp [hx], hlen⟩
    · exact ih h
    · exact ih h

/-- **The scan finds the delimiter exactly when it occurs.** -/
theorem scan_found_iff (hD : D ≠ []) (s : List α) : (scan D s).found = true ↔ D <:+: s := by
  constructor
  · intro h
    rw [← scan_released_append_held D s]
    exact (scan_found_isPrefix h).isInfix.trans (List.suffix_append _ _).isInfix
  · intro h
    by_contra hf
    rw [Bool.not_eq_true] at hf
    -- an occurrence lies at a released position, or in what is held, which is too short
    obtain ⟨a, b, hab⟩ := h
    have hpre : D <+: s.drop a.length := by
      rw [← hab, List.append_assoc, List.drop_left]
      exact List.prefix_append _ _
    have hge : (scan D s).released.length ≤ a.length := by
      by_contra hlt
      exact scan_not_prefix_of_lt hD (Nat.not_le.mp hlt) hpre
    have hlen := congrArg List.length (scan_released_append_held D s)
    have hDlen := hpre.length_le
    have hpos := List.length_pos_of_ne_nil hD
    simp only [List.length_append, List.length_drop] at hlen hDlen
    rcases scan_held_of_not_found hf with hh | ⟨-, hh⟩
    · rw [hh] at hlen
      simp only [List.length_nil] at hlen
      omega
    · omega

/-- A first occurrence is where the scan stops. -/
theorem scan_append_delim {c t : List α} (hD : D ≠ [])
    (h : ∀ j < c.length, ¬ D <+: (c ++ (D ++ t)).drop j) :
    scan D (c ++ (D ++ t)) = ⟨c, D ++ t, true⟩ := by
  induction c with
  | nil => exact scan_of_isPrefix hD (List.prefix_append _ _)
  | cons x c ih =>
    have hx : ¬ D <+: x :: (c ++ (D ++ t)) := h 0 (by simp)
    have hlen : D.length ≤ (x :: (c ++ (D ++ t))).length := by
      simp only [List.length_cons, List.length_append]
      omega
    rw [List.cons_append, scan_cons_of_not_isPrefix hlen hx,
      ih fun j hj => h (j + 1) (by simpa using hj)]
    rfl

/-- A scan that has found the delimiter is not changed by more input. -/
theorem scan_append_of_found {s : List α} (hD : D ≠ []) (h : (scan D s).found = true)
    (y : List α) : scan D (s ++ y) = ⟨(scan D s).released, (scan D s).held ++ y, true⟩ := by
  induction s with
  | nil => simp at h
  | cons x xs ih =>
    by_cases hp : D <+: x :: xs
    · rw [scan_of_isPrefix hD hp, scan_of_isPrefix hD (hp.trans (List.prefix_append _ _))]
    · have hrel : ∀ t, D <+: x :: t → D.head? = some x := by
        intro t ht
        obtain ⟨d, D', rfl⟩ := List.exists_cons_of_ne_nil hD
        simpa using (List.cons_prefix_cons.mp ht).1
      by_cases hx : D.head? = some x
      · have hlen : D.length ≤ (x :: xs).length := by
          by_contra hlt
          rw [scan_cons_of_short hx (by omega)] at h
          simp at h
        have hp' : ¬ D <+: x :: (xs ++ y) := fun hpy => hp
          (List.prefix_of_prefix_length_le hpy (List.prefix_append (x :: xs) y) hlen)
        rw [scan_cons_of_not_isPrefix hlen hp] at h ⊢
        rw [List.cons_append, scan_cons_of_not_isPrefix
          (by simp only [List.length_cons, List.length_append] at hlen ⊢; omega) hp', ih h]
        rfl
      · rw [scan_cons_of_ne hx] at h ⊢
        rw [List.cons_append, scan_cons_of_ne hx, ih h]
        rfl

/-- **Where the stream is cut is unobservable**: scanning `s ++ y` releases what scanning `s` does
and goes on from what was held. -/
theorem scan_append (s y : List α) (h : (scan D s).found = false) :
    scan D (s ++ y) = (scan D ((scan D s).held ++ y)).releaseAll (scan D s).released := by
  induction s with
  | nil => rfl
  | cons x xs ih =>
    by_cases hx : D.head? = some x
    · by_cases hlen : (x :: xs).length < D.length
      · rw [scan_cons_of_short hx hlen]
        rfl
      · have hp : ¬ D <+: x :: xs := by
          intro hp
          have hD : D ≠ [] := by rintro rfl; simp at hx
          rw [scan_of_isPrefix hD hp] at h
          simp at h
        have hp' : ¬ D <+: x :: (xs ++ y) := fun hpy => hp
          (List.prefix_of_prefix_length_le hpy (List.prefix_append (x :: xs) y) (by omega))
        rw [scan_cons_of_not_isPrefix (by omega) hp] at h ⊢
        rw [List.cons_append, scan_cons_of_not_isPrefix
          (by simp only [List.length_cons, List.length_append] at hlen ⊢; omega) hp', ih h]
        rfl
    · rw [scan_cons_of_ne hx] at h ⊢
      rw [List.cons_append, scan_cons_of_ne hx, ih h]
      rfl

/-- What is held has nothing to release. -/
theorem scan_held (s : List α) (h : (scan D s).found = false) :
    scan D (scan D s).held = ⟨[], (scan D s).held, false⟩ := by
  rcases scan_held_of_not_found h with hh | ⟨hhead, hlen⟩
  · rw [hh, scan_nil]
  · cases hs : (scan D s).held with
    | nil => rfl
    | cons x xs =>
      rw [hs] at hhead hlen
      exact scan_cons_of_short (by simpa using hhead.symm) hlen

end DelimScan
